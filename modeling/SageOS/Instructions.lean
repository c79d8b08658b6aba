import SageOS.CString
import SageOS.OpCodes

/-!
# Instructions as bytes

The machine reads an opcode and then the operands that belong to it. The compiler writes whole
instructions, and the machine reads most of them as they were written. It reads no operand behind
DUP: there the operand of the compiler is the opcode of the next instruction.
-/
namespace SageOS
open List

/-- The number of bytes that `metal_vm_step` reads behind an opcode. -/
def OpCode.operandBytes : OpCode → ℕ
  | .constant | .getGlobal | .defineGlobal | .setGlobal | .getProperty | .setProperty
  | .importModule | .execAstStmt | .defMethod | .array | .tuple | .dict
  | .jump | .jumpIfFalse | .brk | .cont | .loopBack => 2
  | .defineFn | .setupTry => 4
  | .callMethod => 3
  | .defClass => 6
  | .call => 1
  | _ => 0

def u16 (n : ℕ) : Bytes := [UInt8.ofNat (n / 256), UInt8.ofNat n]

def ofU16 (hi lo : UInt8) : ℕ := hi.toNat * 256 + lo.toNat

/-- An instruction as the machine reads it. -/
structure MetalInstr where
  op : OpCode
  operands : Bytes
  /-- It is read right behind a DUP. -/
  afterDup : Bool := false
  deriving DecidableEq, Repr

namespace MetalInstr
variable (i : MetalInstr)

def encode : Bytes := i.op.byte :: i.operands

def size : ℕ := i.encode.length

/-- The first two bytes behind the opcode. -/
def index : ℕ :=
  match i.operands with
  | hi :: lo :: _ => ofU16 hi lo
  | _ => 0

theorem size_pos : 0 < i.size := Nat.succ_pos _

end MetalInstr

def codeOf (is : List MetalInstr) : Bytes := is.flatMap MetalInstr.encode

def decodeFrom : Bool → ℕ → Bytes → List MetalInstr
  | _, 0, _ => []
  | _, _, [] => []
  | afterDup, n + 1, b :: rest =>
    match OpCode.ofByte b.toNat with
    | none => []
    | some op =>
      if op.operandBytes ≤ rest.length then
        ⟨op, rest.take op.operandBytes, afterDup⟩ ::
          decodeFrom (op = .dup) n (rest.drop op.operandBytes)
      else []

/-- The instructions of a code, up to one that cannot be read. -/
def decodeAll (code : Bytes) : List MetalInstr := decodeFrom false code.length code

def instrAt : List MetalInstr → ℕ → Option MetalInstr
  | [], _ => none
  | i :: is, pc =>
    if pc = 0 then some i else if pc < i.size then none else instrAt is (pc - i.size)

/-- The instructions are what the machine reads from their code. -/
def Readable : Bool → List MetalInstr → Prop
  | _, [] => True
  | afterDup, i :: is => i.op ≠ .halt ∧ i.operands.length = i.op.operandBytes ∧
      i.afterDup = afterDup ∧ Readable (i.op = .dup) is

theorem ofByte_byte {op : OpCode} (h : op ≠ .halt) : OpCode.ofByte op.byte.toNat = some op := by
  cases op <;> first | rfl | exact absurd rfl h

theorem codeOf_append (is js : List MetalInstr) : codeOf (is ++ js) = codeOf is ++ codeOf js :=
  flatMap_append

theorem codeOf_cons (i : MetalInstr) (is : List MetalInstr) :
    codeOf (i :: is) = i.encode ++ codeOf is := rfl

section Reading
variable {is : List MetalInstr}

theorem decodeFrom_codeOf {afterDup : Bool} {n : ℕ} (h : Readable afterDup is)
    (hn : (codeOf is).length ≤ n) : decodeFrom afterDup n (codeOf is) = is := by
  induction is generalizing afterDup n with
  | nil => cases n <;> rfl
  | cons i is ih =>
    obtain ⟨hop, hlen, rfl, his⟩ := h
    have hcode : codeOf (i :: is) = i.op.byte :: (i.operands ++ codeOf is) := rfl
    rw [hcode, length_cons, length_append] at hn
    obtain ⟨n, rfl⟩ : ∃ m, n = m + 1 := ⟨n - 1, by omega⟩
    rw [hcode, decodeFrom, ofByte_byte hop]
    dsimp only
    rw [if_pos (by rw [length_append, hlen]; exact Nat.le_add_right _ _), ← hlen, take_left,
      drop_left, ih his (by omega)]

theorem decodeAll_codeOf (h : Readable false is) : decodeAll (codeOf is) = is :=
  decodeFrom_codeOf h le_rfl

theorem instrAt_append (is js : List MetalInstr) (pc : ℕ) :
    instrAt (is ++ js) ((codeOf is).length + pc) = instrAt js pc := by
  induction is with
  | nil => simp [codeOf]
  | cons i is ih =>
    have hpos := i.size_pos
    have hlen : (codeOf (i :: is)).length + pc = i.size + ((codeOf is).length + pc) := by
      rw [codeOf_cons, length_append, Nat.add_assoc]
      rfl
    rw [cons_append, instrAt, hlen, if_neg (by omega), if_neg (by omega),
      Nat.add_sub_cancel_left, ih]

theorem instrAt_of_lt (js : List MetalInstr) {pc : ℕ}
    (hpc : pc < (codeOf is).length) : instrAt (is ++ js) pc = instrAt is pc := by
  induction is generalizing pc with
  | nil => exact absurd hpc (Nat.not_lt_zero pc)
  | cons i is ih =>
    rw [codeOf_cons, length_append] at hpc
    rw [cons_append, instrAt, instrAt]
    split_ifs with hzero hlt
    · rfl
    · rfl
    · exact ih (by unfold MetalInstr.size at hlt ⊢; omega)

end Reading

/-- What the compiler writes behind an opcode: bytes that stay as they are, the index of a constant
and bytes, or an offset. -/
inductive OpLayout
  | plain | index | jump | dup
  deriving DecidableEq, Repr

def OpCode.layout : OpCode → Option OpLayout
  | .constant | .getGlobal | .defineGlobal | .setGlobal | .getProperty | .setProperty | .defineFn
  | .callMethod => some .index
  | .jump | .jumpIfFalse => some .jump
  | .dup => some .dup
  | .execAstStmt | .brk | .cont | .loopBack | .importModule | .defClass | .defMethod
  | .inheritClass | .setupTry | .endTry | .raise | .halt => none
  | _ => some .plain

/-- An instruction of the compiler. A DUP comes with what the machine reads behind it. -/
inductive Instr
  | plain (op : OpCode) (operands : Bytes)
  | index (op : OpCode) (n : ℕ) (rest : Bytes)
  | jump (op : OpCode) (target : ℕ)
  | dup (behind : MetalInstr)

/-- The bytes 46, 2 of a DUP 2 as the index of a constant. -/
def dupIndex : ℕ := 11778

/-- What the machine reads behind the DUP of DUP 0 DUP 2. -/
def dupConstant : MetalInstr := ⟨.constant, u16 dupIndex, true⟩

/-- What the machine reads behind the DUP of DUP 1. -/
def dupNil : MetalInstr := ⟨.pushNil, [], true⟩

namespace Instr

def op : Instr → OpCode
  | plain op _ | index op _ _ | jump op _ => op
  | dup _ => .dup

def layout : Instr → OpLayout
  | plain _ _ => .plain
  | index _ _ _ => .index
  | jump _ _ => .jump
  | dup _ => .dup

def operands : Instr → Bytes
  | plain _ operands => operands
  | index _ n rest => u16 n ++ rest
  | jump _ t => u16 t
  | dup behind => behind.encode

def encode (i : Instr) : Bytes := i.op.byte :: i.operands

def size (i : Instr) : ℕ := i.encode.length

def target : Instr → Option ℕ
  | jump _ t => some t
  | _ => none

/-- The opcode has these operands, and constants are taken from the first `pool` ones. -/
def Fits (pool : ℕ) : Instr → Prop
  | plain op operands => op.layout = some .plain ∧ operands.length = op.operandBytes
  | index op n rest => op.layout = some .index ∧ rest.length + 2 = op.operandBytes ∧ n < pool ∧
      n < 65536
  | jump op t => op.layout = some .jump ∧ t < 65536
  | dup behind => behind = dupConstant ∨ behind = dupNil

/-- What the machine reads for an instruction. -/
def reading : Instr → List MetalInstr
  | dup behind => [⟨.dup, [], false⟩, behind]
  | i => [⟨i.op, i.operands, false⟩]

theorem Fits.mono {pool pool' : ℕ} {i : Instr} (h : i.Fits pool) (hle : pool ≤ pool') :
    i.Fits pool' := by
  cases i with
  | index op n rest => exact ⟨h.1, h.2.1, h.2.2.1.trans_le hle, h.2.2.2⟩
  | _ => exact h

theorem Fits.layout {pool : ℕ} {i : Instr} (h : i.Fits pool) : i.op.layout = some i.layout := by
  cases i with
  | dup behind => rfl
  | _ => exact h.1

theorem reading_of_layout_ne (i : Instr) (h : i.layout ≠ .dup) :
    i.reading = [⟨i.op, i.operands, false⟩] := by
  cases i with
  | dup behind => exact absurd rfl h
  | _ => rfl

theorem codeOf_reading (i : Instr) : codeOf i.reading = i.encode := by
  cases i <;> simp [codeOf, reading, encode, op, operands, MetalInstr.encode]

end Instr

def encodeAll (is : List Instr) : Bytes := is.flatMap Instr.encode

def readings (is : List Instr) : List MetalInstr := is.flatMap Instr.reading

section Writing
variable {pool n : ℕ}

theorem ofU16_u16 (h : n < 65536) : ofU16 (UInt8.ofNat (n / 256)) (UInt8.ofNat n) = n := by
  unfold ofU16
  rw [UInt8.toNat_ofNat', UInt8.toNat_ofNat']
  omega

theorem encodeAll_append (is js : List Instr) :
    encodeAll (is ++ js) = encodeAll is ++ encodeAll js := flatMap_append

theorem encodeAll_cons (i : Instr) (is : List Instr) :
    encodeAll (i :: is) = i.encode ++ encodeAll is := rfl

theorem codeOf_readings (is : List Instr) : codeOf (readings is) = encodeAll is := by
  induction is with
  | nil => rfl
  | cons i is ih =>
    rw [encodeAll_cons, ← ih, ← i.codeOf_reading, ← codeOf_append]
    rfl

theorem OpCode.of_layout {op : OpCode} {layout : OpLayout} (h : op.layout = some layout) :
    op ≠ .halt ∧ (op = .dup ↔ layout = .dup) ∧ (layout = .jump → op.operandBytes = 2) := by
  cases op <;> cases h <;> decide

theorem Instr.Fits.length_operands {i : Instr} (h : i.Fits pool) (hdup : i.layout ≠ .dup) :
    i.operands.length = i.op.operandBytes := by
  cases i with
  | plain op operands => exact h.2
  | index op n rest =>
    change (u16 n ++ rest).length = op.operandBytes
    rw [← h.2.1, length_append, Nat.add_comm]
    rfl
  | jump op t => exact ((OpCode.of_layout h.1).2.2 rfl).symm
  | dup behind => exact absurd rfl hdup

theorem readable_reading {i : Instr} (h : i.Fits pool) {is : List MetalInstr}
    (his : Readable false is) : Readable false (i.reading ++ is) := by
  by_cases hdup : i.layout = .dup
  · cases i with
    | dup behind =>
      rcases h with rfl | rfl
      · exact ⟨nofun, rfl, rfl, nofun, rfl, rfl, his⟩
      · exact ⟨nofun, rfl, rfl, nofun, rfl, rfl, his⟩
    | _ => cases hdup
  · obtain ⟨hhalt, hop, -⟩ := OpCode.of_layout h.layout
    rw [i.reading_of_layout_ne hdup]
    refine ⟨hhalt, h.length_operands hdup, rfl, ?_⟩
    rw [decide_eq_false (hop.not.mpr hdup)]
    exact his

end Writing
end SageOS
