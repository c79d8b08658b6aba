import SageOS.BytecodeCompiler

/-!
# Compilation of statements

A top-level statement leaves a result on the stack, one inside another does not. Loops keep the
places of their `break` jumps until their end is known. Each top-level statement becomes a chunk
of its own that ends with a return.
-/
namespace SageOS
open Emit

def pushLoop (continueTarget : ℕ) (isFor : Bool) (forPopCount : ℕ) : Emit Unit := do
  require ((← get).loops.length < maxLoopDepth)
  modify fun c =>
    { c with
      loops := { continueTarget, hasForCleanup := isFor, forPopCount } :: c.loops }

def onLoop (f : LoopContext → LoopContext) : Emit Unit :=
  modify fun c => { c with loops := c.loops.modifyHead f }

def currentLoop : Emit LoopContext := do
  match (← get).loops with
  | [] => refuse
  | loop :: _ => return loop

def popLoopAndPatchBreaks : Emit Unit := do
  let loop ← currentLoop
  modify fun c => { c with loops := c.loops.tail }
  loop.breakPatches.forM patchHere

/-- A statement that does not leave a result of its own. -/
def resultNil (wantResult : Bool) : Emit Unit :=
  if wantResult then emitOp .pushNil else pure ()

/-- Inside a loop, `loopDepth` is positive. -/
def stmtRequiresAstFallback (allowReturn : Bool) : SageStmt → ℕ → Bool
  | .brk, loopDepth => loopDepth = 0
  | .cont, loopDepth => loopDepth = 0
  | .ret _, _ => !allowReturn
  | .block statements, loopDepth => anyRequires allowReturn statements loopDepth
  | .ifElse _ thenBranch elseBranch, loopDepth =>
    stmtRequiresAstFallback allowReturn thenBranch loopDepth ||
      elseRequires allowReturn elseBranch loopDepth
  | .whileLoop _ body, loopDepth => stmtRequiresAstFallback allowReturn body (loopDepth + 1)
  | .forLoop _ _ body, loopDepth => stmtRequiresAstFallback allowReturn body (loopDepth + 1)
  | .other kind, _ => kind ∈ [.yield, .tryCatch, .asyncProc, .importModule]
  | _, _ => false
where
  anyRequires (allowReturn : Bool) : List SageStmt → ℕ → Bool
    | [], _ => false
    | s :: rest, loopDepth =>
      stmtRequiresAstFallback allowReturn s loopDepth || anyRequires allowReturn rest loopDepth
  elseRequires (allowReturn : Bool) : Option SageStmt → ℕ → Bool
    | none, _ => false
    | some s, loopDepth => stmtRequiresAstFallback allowReturn s loopDepth

def compileBreak (wantResult : Bool) : Emit Unit := do
  let loop ← currentLoop
  if loop.hasForCleanup then
    (List.replicate loop.forPopCount ()).forM fun _ => emitOp .popValue
    emitOp .popEnv
  require (loop.breakPatches.length < maxBreakPatches)
  let jumpLoc ← emitJump .jump
  onLoop fun loop => { loop with breakPatches := loop.breakPatches ++ [jumpLoc] }
  resultNil wantResult

def compileContinue (wantResult : Bool) : Emit Unit := do
  let loop ← currentLoop
  emitJumpTo .jump loop.continueTarget
  resultNil wantResult

/-- The branches of a conditional whose condition has been compiled. -/
def compileBranches (thenCode elseCode : Emit Unit) : Emit Unit := do
  let elseJump ← emitJump .jumpIfFalse
  emitOp .popValue
  thenCode
  let endJump ← emitJump .jump
  patchHere elseJump
  emitOp .popValue
  elseCode
  patchHere endJump

def compileWhile (condition body : Emit Unit) : Emit Unit := do
  let loopStart ← currentOffset
  condition
  let exitJump ← emitJump .jumpIfFalse
  emitOp .popValue
  pushLoop loopStart false 0
  body
  emitJumpTo .jump loopStart
  popLoopAndPatchBreaks
  patchHere exitJump
  emitOp .popValue

/-- The stack holds the array and the index while the body runs. -/
def compileFor (loopVar : Bytes) (iterable body : Emit Unit) : Emit Unit := do
  iterable
  emitOp .pushEnv
  emitConstant (.number zeroBits)
  let loopStart ← currentOffset
  emitDup 0
  emitDup 2
  emitOp .arrayLen
  emitOp .less
  let exitJump ← emitJump .jumpIfFalse
  emitOp .popValue
  emitDup 1
  emitDup 1
  emitOp .getIndex
  emitNameOp .defineGlobal loopVar
  pushLoop (← currentOffset) true 3
  body
  let increment ← currentOffset
  onLoop fun loop => { loop with continueTarget := increment }
  emitConstant (.number oneBits)
  emitOp .add
  emitJumpTo .jump loopStart
  popLoopAndPatchBreaks
  patchHere exitJump
  emitOp .popValue
  emitOp .popValue
  emitOp .popValue
  emitOp .popEnv

/-- The body is compiled into a chunk of its own, which ends by returning nil. -/
def buildFunction (params : List Bytes) (body : Emit Unit) : Emit ℕ := fun c =>
  let start : BytecodeCompiler := { allowReturn := true, functions := c.functions }
  match (do body; emitOp .pushNil; emitOp .ret : Emit Unit) start with
  | none => none
  | some (_, done) =>
    some (done.functions.length,
      { c with functions := done.functions ++ [⟨params, done.chunk⟩] })

mutual

def compileStmt (s : SageStmt) (wantResult : Bool) : Emit Unit := do
  let c ← get
  require (stmtRequiresAstFallback c.allowReturn s c.loops.length = false)
  match s with
  | .print expression => do
    compileExpr expression
    emitOp .print
    resultNil wantResult
  | .letVar name initializer => do
    compileOptional initializer
    emitNameOp .defineGlobal name
    resultNil wantResult
  | .proc name params body => do
    let functionIndex ← buildFunction params (compileStmt body false)
    emitDefineFunction name functionIndex
    resultNil wantResult
  | .expression expression => do
    compileExpr expression
    if wantResult then pure () else emitOp .popValue
  | .block statements => do
    compileBlock statements
    resultNil wantResult
  | .ifElse condition thenBranch elseBranch => do
    compileExpr condition
    compileBranches (compileStmt thenBranch false) (compileElse elseBranch)
    resultNil wantResult
  | .whileLoop condition body => do
    compileWhile (compileExpr condition) (compileStmt body false)
    resultNil wantResult
  | .forLoop loopVar iterable body => do
    compileFor loopVar (compileExpr iterable) (compileStmt body false)
    resultNil wantResult
  | .brk => compileBreak wantResult
  | .cont => compileContinue wantResult
  | .ret value => do
    compileOptional value
    emitOp .ret
  | .other _ => refuse

def compileBlock : List SageStmt → Emit Unit
  | [] => pure ()
  | s :: rest => do
    compileStmt s false
    compileBlock rest

def compileElse : Option SageStmt → Emit Unit
  | none => pure ()
  | some s => compileStmt s false

end

/-- A top-level statement, with the functions that were there before it. -/
def compileStatement (functions : List BytecodeFunction) (s : SageStmt) :
    Option (BytecodeChunk × List BytecodeFunction) :=
  let start : BytecodeCompiler := { allowReturn := false, functions := functions }
  ((do compileStmt s true; emitOp .ret : Emit Unit) start).map fun r => (r.2.chunk, r.2.functions)

def compileProgramFrom (functions : List BytecodeFunction) :
    List SageStmt → Option (List BytecodeChunk × List BytecodeFunction)
  | [] => some ([], functions)
  | s :: rest => do
    let (chunk, functions) ← compileStatement functions s
    let (chunks, functions) ← compileProgramFrom functions rest
    return (chunk :: chunks, functions)

def compileProgram (statements : List SageStmt) :
    Option (List BytecodeChunk × List BytecodeFunction) := compileProgramFrom [] statements

end SageOS
