import SageOS.MetalVm
import SageOS.OpCodes

/-!
# Instructions of the bytecode machine

One step fetches an opcode and runs its instruction; the result says whether the machine goes on.
Operands follow the opcode in the code. The count, index and offset operands are used as they are
wherever the source does not compare them with anything.
-/
namespace SageOS.MetalVM
open Checked
variable (host : MetalHost)

def goOn (m : Run Unit) : Run Bool := do
  m
  return true

def opConstant : Run Bool := do
  let idx ← readU16
  unlessError do
    if idx < (← get).constants.count then goOn (do push (← constAt idx))
    else fail "OP_CONSTANT index error"

def opDup : Run Bool := do
  let vm ← get
  if vm.sp < 1 then fail "OP_DUP: stack underflow"
  else goOn (do push (← stackAt (vm.sp - 1)))

/-- The hash of the name that a constant stands for, whatever its type is. -/
def nameHash (idx : ℕ) : Run UInt32 := do
  let c ← constAt idx
  return metalFnv1a (← stringAt c.int)

def opDefineGlobal : Run Bool := do
  let idx ← readU16
  unlessError (goOn do
    let v ← pop
    scopeDefine (← nameHash idx) idx v)

def opGetGlobal : Run Bool := do
  let idx ← readU16
  unlessError (goOn do
    let hash ← nameHash idx
    match ← scopeLookup hash (← get).scopeDepth with
    | some (_, v) => push v
    | none => push mvNil)

def opSetGlobal : Run Bool := do
  let idx ← readU16
  unlessError (goOn do
    let v ← pop
    scopeAssign (← nameHash idx) v)

def opDefineFn : Run Bool := do
  let nameIdx ← readU16
  let fnIdx ← readU16
  unlessError (goOn do
    scopeDefine (← nameHash nameIdx) nameIdx (.ofInt .fn fnIdx))

def binary (f : MetalValue → MetalValue → MetalValue) : Run Bool := goOn do
  let b ← pop
  let a ← pop
  push (f a b)

def binaryNum (f : UInt64 → UInt64 → UInt64) : Run Bool := binary fun a b => mvNum (f a.bits b.bits)

def binaryCmp (f : UInt64 → UInt64 → Bool) : Run Bool := binary fun a b => mvBool (f a.bits b.bits)

def unary (f : MetalValue → MetalValue) : Run Bool := goOn do
  push (f (← pop))

def opAdd : Run Bool := goOn do
  let b ← pop
  let a ← pop
  if a.type = .str ∧ b.type = .str then
    push (← internWith fun pool => metalStringConcat pool a.int b.int)
  else push (mvNum (host.double.add a.bits b.bits))

/-- Division and remainder refuse a zero divisor. -/
def divideWith (f : UInt64 → UInt64 → UInt64) (msg : String) : Run Bool := do
  let b ← pop
  let a ← pop
  if host.double.isZero b.bits then fail msg
  else goOn (push (mvNum (f a.bits b.bits)))

def jumpTo (target : ℤ) : Run Unit := modify fun vm => { vm with ip := target }

def opJump : Run Bool := goOn do
  jumpTo (← readU16)

def opJumpIfFalse : Run Bool := goOn do
  let off ← readU16
  let v ← pop
  if metalTruthy host.double v then return () else jumpTo off

def opLoopBack : Run Bool := goOn do
  let off ← readU16
  modify fun vm => { vm with ip := vm.ip - off }

/-- The name is looked up; the module loader leaves the machine alone. -/
def opImport : Run Bool := do
  let idx ← readU16
  unlessError (goOn do
    let _ ← nameHash idx)

def enterScope : Run Unit := do
  let vm ← get
  if vm.scopeDepth < metalEnvDepth - 1 then
    modify fun vm => { vm with scopeDepth := vm.scopeDepth + 1 }
    setScopeAt (vm.scopeDepth + 1) []
  else return ()

def leaveScope : Run Unit := modify fun vm => { vm with scopeDepth := vm.scopeDepth - 1 }

/-- Elements `s` to `e - 1` of one array are appended to another. -/
def copySlice (dst src s e : ℤ) (h : MetalHeap) : MetalHeap :=
  (List.range (e - s).toNat).foldl
    (fun h i => h.metalArrayPush dst (h.metalArrayGet src (s + i))) h

def opSlice : Run Bool := do
  let e ← pop
  let s ← pop
  let obj ← pop
  let start := max (host.double.toInt s.bits) 0
  let stop := host.double.toInt e.bits
  match obj.type with
  | .arr =>
    match ← newArray with
    | none => fail "array pool full"
    | some arr =>
      let len := (← get).heap.metalArrayLen obj.int
      goOn do
        onHeap (copySlice arr obj.int start (min stop len))
        push (.ofInt .arr arr)
  | .str =>
    let str ← stringAt obj.int
    let stop' := max (min stop str.length) start
    goOn do
      push (← mvStr ((str.drop start.toNat).take (stop' - start).toNat))
  | _ => goOn (push mvNil)

def opGetProperty : Run Bool := do
  let idx ← readU16
  unlessError (goOn do
    let obj ← pop
    if obj.type = .dict then push ((← get).heap.metalDictGet obj.int idx) else push mvNil)

def opSetProperty : Run Bool := do
  let idx ← readU16
  unlessError (goOn do
    let v ← pop
    let obj ← pop
    onHeap fun h => if obj.type = .dict then h.metalDictSet obj.int idx v else h
    push v)

/-- The receiver and the arguments are replaced by the result of a method. -/
def finishMethod (argc : ℕ) (v : MetalValue) : Run Bool := goOn do
  dropStack (argc + 1)
  push v

def pushTokens (arr : ℕ) (tokens : List Bytes) : Run Unit :=
  tokens.forM fun token => do
    let v ← mvStr token
    onHeap fun h => h.metalArrayPush arr v

def arrayMethod (argc : ℕ) (method : Bytes) (receiver : MetalValue) : Run Bool := do
  let vm ← get
  if method = bytes "push" then
    let v ← stackAt (vm.sp - 1)
    onHeap fun h => h.metalArrayPush receiver.int v
    finishMethod argc mvNil
  else if method = bytes "len" then
    finishMethod argc (mvNum (host.double.ofInt (vm.heap.metalArrayLen receiver.int)))
  else fail "method not found"

def affixMethod (argc : ℕ) (starts : Bool) (s : Bytes) : Run Bool := do
  let vm ← get
  let sub ← stackAt (vm.sp - 1)
  let affix := if sub.type = .str then metalStringGet vm.strings sub.int else []
  finishMethod argc (mvBool (if starts then affix.isPrefixOf s else affix.isSuffixOf s))

def stringMethod (argc : ℕ) (method : Bytes) (receiver : MetalValue) : Run Bool := do
  let s ← stringAt receiver.int
  if method = bytes "split" then
    match ← newArray with
    | none => fail "method not found"
    | some arr =>
      pushTokens arr (splitTokens (s.length + 1) s)
      finishMethod argc (.ofInt .arr arr)
  else if method = bytes "strip" then
    let v ← internWith fun pool => metalStringIntern pool (stripBytes s)
    finishMethod argc v
  else if method = bytes "startswith" then affixMethod argc true s
  else if method = bytes "endswith" then affixMethod argc false s
  else fail "method not found"

def opCallMethod : Run Bool := do
  let argc ← readU8
  let nameIdx ← readU16
  let method ← stringAt nameIdx
  let vm ← get
  let receiver ← stackAt (vm.sp - argc - 1)
  match receiver.type with
  | .arr => arrayMethod host argc method receiver
  | .str => stringMethod argc method receiver
  | _ => fail "method not found"

/-- The parameters become variables of the new scope; missing arguments are nil. -/
def bindParams (argc : ℕ) (params : List (UInt32 × ℕ)) : Run Unit :=
  params.forM fun p => do
    let vm ← get
    if p.2 < argc then
      let arg ← stackAt (vm.sp - argc + p.2)
      scopeDefine p.1 (-1) arg
    else scopeDefine p.1 (-1) mvNil

def callFunction (argc : ℕ) (fn : MetalFunction) : Run Bool := do
  let vm ← get
  if metalCallStack ≤ vm.frameCount then fail "stack overflow"
  else goOn do
    let base := vm.sp - argc - 1
    setFrameAt vm.frameCount
      { code := vm.code, ip := vm.ip, spBase := base, constants := vm.constants }
    modify fun vm =>
      { vm with
        frameCount := vm.frameCount + 1
        code := fn.code
        ip := 0
        constants := fn.constants }
    enterScope
    bindParams argc fn.paramNameHashes.zipIdx
    modify fun vm => { vm with sp := base }

def takeArgs (argc : ℕ) : Run (List MetalValue) := do
  let vm ← get
  (List.range (min argc 16)).mapM fun i => stackAt (vm.sp - argc + i)

def callNative (argc id : ℕ) : Run Bool := goOn do
  let args ← takeArgs argc
  dropStack (argc + 1)
  let r := host.native id args (← get)
  set r.2
  push r.1

def opCall : Run Bool := do
  let argc ← readU8
  let vm ← get
  let callee ← stackAt (vm.sp - argc - 1)
  match callee.type with
  | .str =>
    let hash := metalFnv1a (metalStringGet vm.strings callee.int)
    match vm.natives.find? (·.1 = hash) with
    | some entry => callNative host argc entry.2
    | none => fail "unsupported call target"
  | .fn =>
    if 0 ≤ callee.int ∧ callee.int < vm.fnCount then
      callFunction argc (vm.functions callee.int.toNat)
    else fail "unsupported call target"
  | _ => fail "unsupported call target"

def opArray : Run Bool := do
  let count ← readU16
  match ← newArray with
  | none => fail "array pool full"
  | some arr =>
    let vm ← get
    goOn do
      (List.range count).forM fun i => do
        let v ← stackAt (vm.sp - count + i)
        onHeap fun h => h.metalArrayPush arr v
      dropStack count
      push (.ofInt .arr arr)

def opDict : Run Bool := do
  let count ← readU16
  match ← newDict with
  | none => fail "dict pool full"
  | some dict =>
    goOn do
      (List.range count).forM fun _ => do
        let v ← pop
        let key ← pop
        onHeap fun h => if key.type = .str then h.metalDictSet dict key.int v else h
      push (.ofInt .dict dict)

def opArrayLen : Run Bool := goOn do
  let a ← pop
  let vm ← get
  push (mvNum (host.double.ofInt (if a.type = .arr then vm.heap.metalArrayLen a.int else 0)))

def opGetIndex : Run Bool := goOn do
  let idx ← pop
  let obj ← pop
  let vm ← get
  if obj.type = .arr then push (vm.heap.metalArrayGet obj.int (host.double.toInt idx.bits))
  else if obj.type = .dict ∧ idx.type = .str then push (vm.heap.metalDictGet obj.int idx.int)
  else push mvNil

def opSetIndex : Run Bool := goOn do
  let v ← pop
  let idx ← pop
  let obj ← pop
  onHeap fun h =>
    if obj.type = .arr then h.metalArraySet obj.int (host.double.toInt idx.bits) v
    else if obj.type = .dict ∧ idx.type = .str then h.metalDictSet obj.int idx.int v
    else h
  push v

def opReturn : Run Bool := do
  let res ← pop
  let vm ← get
  if 0 < vm.frameCount then
    goOn do
      leaveScope
      let f ← frameAt (vm.frameCount - 1)
      modify fun vm =>
        { vm with
          frameCount := vm.frameCount - 1
          ip := f.ip
          code := f.code
          constants := f.constants
          sp := f.spBase }
      push res
  else
    modify fun vm => { vm with halted := true }
    return false

/-- The text for an opcode that the machine does not know. -/
def unknownOpCode (op : ℕ) : String :=
  "unknown opcode: " ++ String.ofList [Nat.digitChar (op / 100 % 10), Nat.digitChar (op / 10 % 10),
    Nat.digitChar (op % 10)]

def exec : OpCode → Run Bool
  | .halt => do
    modify fun vm => { vm with halted := true }
    return false
  | .constant => opConstant
  | .pushNil => goOn (push mvNil)
  | .pushTrue => goOn (push (mvBool true))
  | .pushFalse => goOn (push (mvBool false))
  | .popValue => goOn (do let _ ← pop)
  | .dup => opDup
  | .defineGlobal => opDefineGlobal
  | .getGlobal => opGetGlobal
  | .setGlobal => opSetGlobal
  | .defineFn => opDefineFn
  | .add => opAdd host
  | .sub => binaryNum host.double.sub
  | .mul => binaryNum host.double.mul
  | .div => divideWith host host.double.div "div zero"
  | .mod => divideWith host host.double.intMod "mod zero"
  | .negate => unary fun a => mvNum (host.double.neg a.bits)
  | .equal => binary fun a b => mvBool (metalEqual a b)
  | .notEqual => binary fun a b => mvBool (!metalEqual a b)
  | .greater => binaryCmp fun a b => host.double.lt b a
  | .greaterEq => binaryCmp fun a b => host.double.le b a
  | .less => binaryCmp host.double.lt
  | .lessEq => binaryCmp host.double.le
  | .logicalNot => unary fun a => mvBool (!metalTruthy host.double a)
  | .truthy => unary fun a => mvBool (metalTruthy host.double a)
  | .bitAnd => binaryNum (· &&& ·)
  | .bitOr => binaryNum (· ||| ·)
  | .bitXor => binaryNum (· ^^^ ·)
  | .bitNot => unary fun a => mvNum (~~~ a.bits)
  | .shiftLeft => binaryNum fun a b => a <<< UInt64.ofInt (host.double.toInt b)
  | .shiftRight => binaryNum fun a b => a >>> UInt64.ofInt (host.double.toInt b)
  | .jump | .brk | .cont => opJump
  | .jumpIfFalse => opJumpIfFalse host
  | .loopBack => opLoopBack
  | .importModule => opImport
  | .execAstStmt => do
    let _ ← readU16
    fail "AST execution not supported"
  | .pushEnv => goOn enterScope
  | .popEnv => goOn leaveScope
  | .print => goOn (do let _ ← pop)
  | .slice => opSlice host
  | .getProperty => opGetProperty
  | .setProperty => opSetProperty
  | .callMethod => opCallMethod host
  | .call => opCall host
  | .array | .tuple => opArray
  | .dict => opDict
  | .arrayLen => opArrayLen host
  | .getIndex => opGetIndex host
  | .setIndex => opSetIndex host
  | .ret => opReturn
  | .defClass => goOn (do let _ ← readU16; let _ ← readU16; let _ ← readU16)
  | .defMethod => goOn (do let _ ← readU16)
  | .inheritClass => goOn (do let _ ← pop)
  | .setupTry => goOn (do let _ ← readU16; let _ ← readU16)
  | .endTry => return true
  | .raise => do
    let _ ← pop
    fail "exception raised"

/-- `metal_vm_step`: whether another instruction may follow. -/
def step : Run Bool := do
  let vm ← get
  if vm.halted ∨ vm.error.isSome ∨ vm.code.length ≤ vm.ip then return false
  else
    let op ← readU8
    unlessError (match OpCode.ofByte op with
      | some code => exec host code
      | none => fail (unknownOpCode op))

end SageOS.MetalVM
