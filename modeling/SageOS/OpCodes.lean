import Mathlib.Data.List.Basic

/-!
# Opcodes

The numbering that the compiler and the bytecode machines share.
-/
namespace SageOS

inductive OpCode
  | constant | pushNil | pushTrue | pushFalse | popValue | getGlobal | defineGlobal | setGlobal
  | defineFn | getProperty | setProperty | getIndex | setIndex | slice | add | sub | mul | div
  | mod | negate | equal | notEqual | greater | greaterEq | less | lessEq | bitAnd | bitOr
  | bitXor | bitNot | shiftLeft | shiftRight | logicalNot | truthy | jump | jumpIfFalse | call
  | callMethod | array | tuple | dict | print | execAstStmt | ret | pushEnv | popEnv | dup
  | arrayLen | brk | cont | loopBack | importModule | defClass | defMethod | inheritClass
  | setupTry | endTry | raise | halt
  deriving DecidableEq, Repr

def opCodes : List OpCode :=
  [.constant, .pushNil, .pushTrue, .pushFalse, .popValue, .getGlobal, .defineGlobal, .setGlobal,
    .defineFn, .getProperty, .setProperty, .getIndex, .setIndex, .slice, .add, .sub, .mul, .div,
    .mod, .negate, .equal, .notEqual, .greater, .greaterEq, .less, .lessEq, .bitAnd, .bitOr,
    .bitXor, .bitNot, .shiftLeft, .shiftRight, .logicalNot, .truthy, .jump, .jumpIfFalse, .call,
    .callMethod, .array, .tuple, .dict, .print, .execAstStmt, .ret, .pushEnv, .popEnv, .dup,
    .arrayLen, .brk, .cont, .loopBack, .importModule, .defClass, .defMethod, .inheritClass,
    .setupTry, .endTry, .raise]

def OpCode.ofByte (b : ℕ) : Option OpCode := if b = 0xFF then some .halt else opCodes[b]?

def OpCode.byte (op : OpCode) : UInt8 := UInt8.ofNat (opCodes.idxOf op)

end SageOS
