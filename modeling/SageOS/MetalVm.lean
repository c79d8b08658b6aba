import SageOS.Checked
import SageOS.MetalValue

/-!
# State of the bytecode machine

Code and constants are reached through references into the loaded image. Every access to the
stack, the constants, the frames, the scopes and the code goes through one of the accessors below,
which stop the computation outside the bounds of the array.
-/
namespace SageOS

def metalStackSize : ℕ := 2048

def metalConstPool : ℕ := 4096

def metalEnvDepth : ℕ := 32

def metalVarsPerScope : ℕ := 512

def metalCallStack : ℕ := 128

def metalHeapSize : ℕ := 8388608

/-- A pointer into the image and the `int` that is kept as its length. -/
structure CodeRef where
  base : ℤ := 0
  length : ℤ := 0
  deriving DecidableEq

/-- The constants stored into a pool and the count recorded for it. -/
structure ConstPool where
  decoded : List MetalValue := []
  count : ℕ := 0
  deriving DecidableEq

structure MetalFunction where
  code : CodeRef := {}
  constants : ConstPool := {}
  paramNameHashes : List UInt32 := []
  deriving DecidableEq

structure MetalVar where
  nameHash : UInt32
  nameConstIdx : ℤ
  value : MetalValue

structure MetalFrame where
  code : CodeRef := {}
  ip : ℤ := 0
  spBase : ℕ := 0
  constants : ConstPool := {}

structure MetalVM where
  image : Bytes := []
  stack : ℕ → MetalValue := fun _ => {}
  sp : ℕ := 0
  callStack : ℕ → MetalFrame := fun _ => {}
  frameCount : ℕ := 0
  code : CodeRef := {}
  ip : ℤ := 0
  constants : ConstPool := {}
  scopes : ℕ → List MetalVar := fun _ => []
  scopeDepth : ℕ := 0
  heap : MetalHeap := {}
  functions : ℕ → MetalFunction := fun _ => {}
  fnCount : ℕ := 0
  strings : Bytes := []
  heapUsed : ℕ := 0
  halted : Bool := false
  error : Option String := none
  natives : List (UInt32 × ℕ) := []

/-- What the machine runs on: doubles and the registered C functions. -/
structure MetalHost where
  double : DoubleOps
  native : ℕ → List MetalValue → MetalVM → MetalValue × MetalVM

namespace MetalVM
open Checked

abbrev Run (α : Type) := Checked MetalVM α

def stackAt (i : ℤ) : Run MetalValue := do
  require fun _ => 0 ≤ i ∧ i < metalStackSize
  return (← get).stack i.toNat

def setStackAt (i : ℤ) (v : MetalValue) : Run Unit := do
  require fun _ => 0 ≤ i ∧ i < metalStackSize
  modify fun vm => { vm with stack := Function.update vm.stack i.toNat v }

/-- A constant of the active pool; entries that were never stored are zero. -/
def constAt (i : ℕ) : Run MetalValue := do
  require fun vm => i < vm.constants.count
  return (← get).constants.decoded.getD i {}

def frameAt (i : ℕ) : Run MetalFrame := do
  require fun _ => i < metalCallStack
  return (← get).callStack i

def setFrameAt (i : ℕ) (f : MetalFrame) : Run Unit := do
  require fun _ => i < metalCallStack
  modify fun vm => { vm with callStack := Function.update vm.callStack i f }

def scopeAt (i : ℕ) : Run (List MetalVar) := do
  require fun _ => i < metalEnvDepth
  return (← get).scopes i

def setScopeAt (i : ℕ) (s : List MetalVar) : Run Unit := do
  require fun _ => i < metalEnvDepth
  modify fun vm => { vm with scopes := Function.update vm.scopes i s }

/-- Byte `i` of the current code: it has to lie below the recorded length and inside the image. -/
def InCode (i : ℤ) (vm : MetalVM) : Prop :=
  0 ≤ i ∧ i < vm.code.length ∧ 0 ≤ vm.code.base + i ∧ vm.code.base + i < vm.image.length

instance (i : ℤ) : DecidablePred (InCode i) := fun _ => inferInstanceAs (Decidable (_ ∧ _))

def codeByte (vm : MetalVM) (i : ℤ) : ℕ := (vm.image.getD (vm.code.base + i).toNat 0).toNat

def codeAt (i : ℤ) : Run ℕ := do
  require (InCode i)
  return (← get).codeByte i

def setError (msg : String) : Run Unit := modify fun vm => { vm with error := some msg }

/-- `vm->error = 1; vm->error_msg = msg; return 0;` -/
def fail (msg : String) : Run Bool := do
  setError msg
  return false

/-- `if (vm->error) return 0;` before the rest of an instruction. -/
def unlessError (rest : Run Bool) : Run Bool := do
  if (← get).error.isSome then return false else rest

def outOfCode : String := "Metal VM: code read out of bounds"

def readU8 : Run ℕ := do
  let vm ← get
  if vm.code.length ≤ vm.ip then
    setError outOfCode
    return 0
  else
    let b ← codeAt vm.ip
    modify fun vm => { vm with ip := vm.ip + 1 }
    return b

/-- Both `read_u16` and `read_u16_be`: two bytes, the higher first. -/
def readU16 : Run ℕ := do
  let vm ← get
  if vm.code.length ≤ vm.ip + 1 then
    setError outOfCode
    return 0
  else
    let hi ← codeAt vm.ip
    let lo ← codeAt (vm.ip + 1)
    modify fun vm => { vm with ip := vm.ip + 2 }
    return hi * 256 + lo

def push (v : MetalValue) : Run Unit := do
  let vm ← get
  if metalStackSize ≤ vm.sp then setError "Metal VM: stack overflow"
  else
    setStackAt vm.sp v
    modify fun vm => { vm with sp := vm.sp + 1 }

def pop : Run MetalValue := do
  let vm ← get
  if vm.sp = 0 then return mvNil
  else
    let v ← stackAt (vm.sp - 1)
    modify fun vm => { vm with sp := vm.sp - 1 }
    return v

/-- `vm->sp -= n`, after the accesses that show it does not become negative. -/
def dropStack (n : ℕ) : Run Unit := modify fun vm => { vm with sp := vm.sp - n }

def stringAt (idx : ℤ) : Run Bytes := return metalStringGet (← get).strings idx

def internWith (f : Bytes → ℤ × Bytes) : Run MetalValue := do
  let r := f (← get).strings
  modify fun vm => { vm with strings := r.2 }
  return .ofInt .str r.1

def mvStr (s : Bytes) : Run MetalValue := internWith fun pool => metalStringIntern pool s

def roots (vm : MetalVM) : List MetalValue :=
  (List.range vm.sp).map vm.stack ++
    (List.range (vm.scopeDepth + 1)).flatMap fun d =>
      if d < metalEnvDepth then (vm.scopes d).map (·.value) else []

def newArray : Run (Option ℕ) := do
  let vm ← get
  let r := vm.heap.metalArrayNew vm.roots
  modify fun vm => { vm with heap := r.2 }
  return r.1

def newDict : Run (Option ℕ) := do
  let vm ← get
  let r := vm.heap.metalDictNew vm.roots
  modify fun vm => { vm with heap := r.2 }
  return r.1

def onHeap (f : MetalHeap → MetalHeap) : Run Unit := modify fun vm => { vm with heap := f vm.heap }

/-- The search from the innermost scope outwards, with the scope it ends in. -/
def scopeLookup (hash : UInt32) : ℕ → Run (Option (ℕ × MetalValue))
  | 0 => do
    let vars ← scopeAt 0
    return (vars.find? (·.nameHash = hash)).map fun x => (0, x.value)
  | d + 1 => do
    let vars ← scopeAt (d + 1)
    match vars.find? (·.nameHash = hash) with
    | some x => return some (d + 1, x.value)
    | none => scopeLookup hash d

def storeVar (vars : List MetalVar) (hash : UInt32) (v : MetalValue) : List MetalVar :=
  match vars.findIdx? (·.nameHash = hash) with
  | some i => vars.modify i fun x => { x with value := v }
  | none => vars

def scopeDefine (hash : UInt32) (nameConstIdx : ℤ) (v : MetalValue) : Run Unit := do
  let vm ← get
  let vars ← scopeAt vm.scopeDepth
  if vars.any (·.nameHash = hash) then setScopeAt vm.scopeDepth (storeVar vars hash v)
  else if metalVarsPerScope ≤ vars.length then return ()
  else setScopeAt vm.scopeDepth (vars ++ [⟨hash, nameConstIdx, v⟩])

def scopeAssign (hash : UInt32) (v : MetalValue) : Run Unit := do
  match ← scopeLookup hash (← get).scopeDepth with
  | some (d, _) => setScopeAt d (storeVar (← scopeAt d) hash v)
  | none => scopeDefine hash (-1) v

end MetalVM
end SageOS
