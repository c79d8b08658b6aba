import SageOS.CString
import SageOS.OpCodes

/-!
# The bytecode compiler

Expressions and statements are as the parser builds them: a part that the source tests for a null
pointer is optional, numbers are the bits of a double, and statements that the compiler never
compiles keep their kind only. Code is written byte by byte; a forward jump is written with operand
0 and patched when its destination is known. This is the strict mode, in which a statement that
would need the interpreter is refused. Procedures go to a table of functions that all chunks share.
-/
namespace SageOS

inductive TokenType
  | or | and | not | tilde | plus | minus | star | slash | percent | eq | neq | gt | gte | lt | lte
  | amp | pipe | caret | lshift | rshift | other
  deriving DecidableEq, Repr

inductive SageExpr
  | number (bits : UInt64)
  | string (value : Bytes)
  | bool (value : Bool)
  | nil
  | binary (op : TokenType) (left : SageExpr) (right : Option SageExpr)
  | var (name : Bytes)
  | call (callee : SageExpr) (args : List SageExpr)
  | array (elements : List SageExpr)
  | index (array index : SageExpr)
  | dict (entries : List (Bytes × SageExpr))
  | tuple (elements : List SageExpr)
  | slice (array : SageExpr) (start stop : Option SageExpr)
  | get (object : SageExpr) (property : Bytes)
  | set (object : Option SageExpr) (property : Bytes) (value : SageExpr)
  | indexSet (array index value : SageExpr)
  | await (expression : SageExpr)
  | super (method : Bytes)
  | comptime (expression : SageExpr)

inductive OtherStmt
  | defClass | matchCase | defer | tryCatch | raise | yield | importModule | asyncProc | defStruct
  | defEnum | defTrait | comptime | defMacro
  deriving DecidableEq, Repr

inductive SageStmt
  | print (expression : SageExpr)
  | expression (expression : SageExpr)
  | letVar (name : Bytes) (initializer : Option SageExpr)
  | ifElse (condition : SageExpr) (thenBranch : SageStmt) (elseBranch : Option SageStmt)
  | block (statements : List SageStmt)
  | whileLoop (condition : SageExpr) (body : SageStmt)
  | proc (name : Bytes) (params : List Bytes) (body : SageStmt)
  | forLoop (loopVar : Bytes) (iterable : SageExpr) (body : SageStmt)
  | ret (value : Option SageExpr)
  | brk
  | cont
  | other (kind : OtherStmt)

inductive BytecodeConst
  | number (bits : UInt64)
  | string (value : Bytes)
  deriving DecidableEq, Repr

structure BytecodeChunk where
  code : Bytes := []
  constants : List BytecodeConst := []
  deriving DecidableEq, Repr

structure BytecodeFunction where
  params : List Bytes
  chunk : BytecodeChunk
  deriving DecidableEq, Repr

structure LoopContext where
  breakPatches : List ℕ := []
  continueTarget : ℕ
  hasForCleanup : Bool
  forPopCount : ℕ
  deriving DecidableEq, Repr

/-- The innermost loop comes first. -/
structure BytecodeCompiler where
  chunk : BytecodeChunk := {}
  loops : List LoopContext := []
  allowReturn : Bool
  functions : List BytecodeFunction

def maxLoopDepth : ℕ := 64

def maxBreakPatches : ℕ := 256

/-- The bits of 0.0 and 1.0. -/
def zeroBits : UInt64 := 0

def oneBits : UInt64 := 0x3FF0000000000000

abbrev Emit := StateT BytecodeCompiler Option

namespace Emit

def refuse {α : Type} : Emit α := fun _ => none

def require (p : Prop) [Decidable p] : Emit Unit := if p then pure () else refuse

def onChunk (f : BytecodeChunk → BytecodeChunk) : Emit Unit :=
  modify fun c => { c with chunk := f c.chunk }

def emitByte (b : UInt8) : Emit Unit :=
  onChunk fun chunk => { chunk with code := chunk.code ++ [b] }

def emitU8 (value : ℕ) : Emit Unit := emitByte (UInt8.ofNat value)

def emitU16 (value : ℕ) : Emit Unit := do
  emitU8 (value / 256)
  emitU8 value

def emitOp (op : OpCode) : Emit Unit := emitByte op.byte

def addConstant (value : BytecodeConst) : Emit ℕ := do
  let c ← get
  onChunk fun chunk => { chunk with constants := chunk.constants ++ [value] }
  return c.chunk.constants.length

def emitConstant (value : BytecodeConst) : Emit Unit := do
  let index ← addConstant value
  require (index ≤ 0xffff)
  emitOp .constant
  emitU16 index

def emitNameOp (op : OpCode) (name : Bytes) : Emit Unit := do
  let index ← addConstant (.string name)
  require (index ≤ 0xffff)
  emitOp op
  emitU16 index

def emitDefineFunction (name : Bytes) (functionIndex : ℕ) : Emit Unit := do
  let nameIndex ← addConstant (.string name)
  require (nameIndex ≤ 0xffff ∧ functionIndex ≤ 0xffff)
  emitOp .defineFn
  emitU16 nameIndex
  emitU16 functionIndex

def emitDup (distance : ℕ) : Emit Unit := do
  emitOp .dup
  emitU8 distance

def emitCount (op : OpCode) (count : ℕ) : Emit Unit := do
  emitOp op
  emitU16 count

def emitCall (argCount : ℕ) : Emit Unit := do
  require (argCount ≤ 0xff)
  emitOp .call
  emitU8 argCount

def emitCallMethod (name : Bytes) (argCount : ℕ) : Emit Unit := do
  let nameIndex ← addConstant (.string name)
  require (nameIndex ≤ 0xffff ∧ argCount ≤ 0xff)
  emitOp .callMethod
  emitU16 nameIndex
  emitU8 argCount

def currentOffset : Emit ℕ := return (← get).chunk.code.length

/-- The operand is patched later; the result is where it stands. -/
def emitJump (op : OpCode) : Emit ℕ := do
  emitOp op
  let patchLocation ← currentOffset
  emitU16 0
  return patchLocation

def emitJumpTo (op : OpCode) (target : ℕ) : Emit Unit := do
  emitOp op
  emitU16 target

def patchJump (patchLocation target : ℕ) : Emit Unit := do
  require (patchLocation + 1 < (← get).chunk.code.length)
  onChunk fun chunk =>
    { chunk with
      code := (chunk.code.set patchLocation (UInt8.ofNat (target / 256))).set (patchLocation + 1)
        (UInt8.ofNat target) }

def patchHere (patchLocation : ℕ) : Emit Unit := do
  patchJump patchLocation (← currentOffset)

end Emit

open Emit

def binaryOpCode : TokenType → Option OpCode
  | .plus => some .add
  | .minus => some .sub
  | .star => some .mul
  | .slash => some .div
  | .percent => some .mod
  | .eq => some .equal
  | .neq => some .notEqual
  | .gt => some .greater
  | .gte => some .greaterEq
  | .lt => some .less
  | .lte => some .lessEq
  | .amp => some .bitAnd
  | .pipe => some .bitOr
  | .caret => some .bitXor
  | .lshift => some .shiftLeft
  | .rshift => some .shiftRight
  | _ => none

/-- The code for `or` and for `and`, given the code of the operands. -/
def compileShortCircuit (isOr : Bool) (left right : Emit Unit) : Emit Unit := do
  left
  let jumpFalse ← emitJump .jumpIfFalse
  emitOp .popValue
  if isOr then
    emitOp .pushTrue
    let endJump ← emitJump .jump
    patchHere jumpFalse
    emitOp .popValue
    right
    emitOp .truthy
    patchHere endJump
  else
    right
    emitOp .truthy
    let endJump ← emitJump .jump
    patchHere jumpFalse
    emitOp .popValue
    emitOp .pushFalse
    patchHere endJump

mutual

def compileExpr : SageExpr → Emit Unit
  | .number bits => emitConstant (.number bits)
  | .string value => emitConstant (.string value)
  | .bool value => emitOp (if value then .pushTrue else .pushFalse)
  | .nil => emitOp .pushNil
  | .var name => emitNameOp .getGlobal name
  | .array elements => do
    compileExprs elements
    emitCount .array elements.length
  | .tuple elements => do
    compileExprs elements
    emitCount .tuple elements.length
  | .dict entries => do
    compileEntries entries
    emitCount .dict entries.length
  | .index array index => do
    compileExpr array
    compileExpr index
    emitOp .getIndex
  | .indexSet array index value => do
    compileExpr array
    compileExpr index
    compileExpr value
    emitOp .setIndex
  | .slice array start stop => do
    compileExpr array
    compileOptional start
    compileOptional stop
    emitOp .slice
  | .get object property => do
    compileExpr object
    emitNameOp .getProperty property
  | .set none property value => do
    compileExpr value
    emitNameOp .setGlobal property
  | .set (some object) property value => do
    compileExpr object
    compileExpr value
    emitNameOp .setProperty property
  | .call (.get object property) args => do
    compileExpr object
    compileExprs args
    emitCallMethod property args.length
  | .call callee args => do
    compileExpr callee
    compileExprs args
    emitCall args.length
  | .binary op left right =>
    if op = .or ∨ op = .and then
      compileShortCircuit (op = .or) (compileExpr left) (compileOptional right)
    else do
      compileExpr left
      if op = .not then emitOp .logicalNot
      else if op = .tilde then emitOp .bitNot
      else
        require (right.isSome)
        compileOptional right
        match binaryOpCode op with
        | some code => emitOp code
        | none => refuse
  | .await _ => refuse
  | .super _ => refuse
  | .comptime expression => compileExpr expression

def compileOptional : Option SageExpr → Emit Unit
  | none => emitOp .pushNil
  | some expression => compileExpr expression

def compileExprs : List SageExpr → Emit Unit
  | [] => pure ()
  | expression :: rest => do
    compileExpr expression
    compileExprs rest

def compileEntries : List (Bytes × SageExpr) → Emit Unit
  | [] => pure ()
  | (key, value) :: rest => do
    emitConstant (.string key)
    compileExpr value
    compileEntries rest

end
end SageOS
