import SageOS.Ending
import SageOS.Instructions
import SageOS.StatementCompiler

/-!
# Compiled code is a list of instructions

While a chunk is compiled, its code consists of whole instructions, constants are taken from its
own pool, and the places that wait for a destination are operands of jumps. A patch changes the
destination of one jump and nothing else. So every chunk of a program is the encoding of some
instructions, with a return at the end.
-/
namespace SageOS
open Checked Emit List

/-- The operand of a jump stands at offset `p`. -/
def JumpAt : List Instr → ℕ → Prop
  | [], _ => False
  | i :: is, p => p = 1 ∧ i.layout = .jump ∨ i.size ≤ p ∧ JumpAt is (p - i.size)

def setTarget : List Instr → ℕ → ℕ → List Instr
  | [], _, _ => []
  | i :: is, p, t =>
    if p < i.size then (match i with | .jump op _ => .jump op t | i => i) :: is
    else i :: setTarget is (p - i.size) t

/-- What is known of an offset: a jump waits there for its destination, or code reaches to it. -/
inductive Mark
  | jump (p : ℕ)
  | reached (q : ℕ)

def Mark.Holds (is : List Instr) : Mark → Prop
  | jump p => JumpAt is p
  | reached q => q ≤ (encodeAll is).length

def LoopContext.marks (loop : LoopContext) : Set Mark :=
  insert (.reached loop.continueTarget) (Mark.jump '' {p | p ∈ loop.breakPatches})

/-- The instructions that have been written, and what the open loops rely on. -/
structure Coded (c : BytecodeCompiler) (is : List Instr) : Prop where
  code : c.chunk.code = encodeAll is
  fits : ∀ i ∈ is, i.Fits c.chunk.constants.length
  targets : ∀ i ∈ is, ∀ t ∈ i.target, t ≤ (encodeAll is).length
  loops : ∀ loop ∈ c.loops, ∀ m ∈ loop.marks, m.Holds is

/-- Code is being written, and the marks in `J` hold. -/
def Coding (J : Set Mark) (c : BytecodeCompiler) : Prop :=
  ∃ is, Coded c is ∧ ∀ m ∈ J, m.Holds is

/-- The computation writes whole instructions and keeps the places that wait. -/
def Writes {α : Type} (m : Emit α) : Prop := ∀ J, Ends (Coding J) m fun _ => Coding J

namespace BytecodeCompiler
variable (c : BytecodeCompiler)

def append (bs : Bytes) : BytecodeCompiler :=
  { c with chunk := { c.chunk with code := c.chunk.code ++ bs } }

def withConst (v : BytecodeConst) : BytecodeCompiler :=
  { c with chunk := { c.chunk with constants := c.chunk.constants ++ [v] } }

theorem append_append (bs bs' : Bytes) : (c.append bs).append bs' = c.append (bs ++ bs') := by
  unfold append
  rw [append_assoc]

end BytecodeCompiler

theorem u16_mod (n : ℕ) : u16 (n % 65536) = u16 n := by
  have h (a b : ℕ) (hab : a % 256 = b % 256) : UInt8.ofNat a = UInt8.ofNat b := by
    apply UInt8.toNat_inj.mp
    rw [UInt8.toNat_ofNat', UInt8.toNat_ofNat', hab]
  unfold u16
  rw [h (n % 65536 / 256) (n / 256) (by omega), h (n % 65536) n (by omega)]

section Runs
variable (c : BytecodeCompiler) (op : OpCode) (n : ℕ) (v : BytecodeConst) (name : Bytes)

theorem emitU16_eq : emitU16 n c = some ((), c.append (u16 n)) := by
  rw [show u16 n = [UInt8.ofNat (n / 256)] ++ [UInt8.ofNat n] from rfl, ← c.append_append]
  rfl

theorem emitCount_eq : emitCount op n c = some ((), c.append (op.byte :: u16 n)) := by
  rw [show op.byte :: u16 n = [op.byte] ++ u16 n from rfl, ← c.append_append, ← emitU16_eq]
  rfl

theorem emitJumpTo_eq : emitJumpTo op n c = some ((), c.append (op.byte :: u16 n)) :=
  emitCount_eq c op n

theorem emitJump_eq : emitJump op c =
    some (c.chunk.code.length + 1, c.append (op.byte :: u16 0)) := by
  have hrun : emitJump op c = (emitU16 0 (c.append [op.byte])).map fun r =>
      ((c.append [op.byte]).chunk.code.length, r.2) := rfl
  rw [hrun, emitU16_eq, c.append_append, Option.map_some]
  unfold BytecodeCompiler.append
  rw [length_append]
  rfl

theorem emitSmall_eq : (do emitOp op; emitU8 n : Emit Unit) c =
    some ((), c.append [op.byte, UInt8.ofNat n]) := by
  rw [show [op.byte, UInt8.ofNat n] = [op.byte] ++ [UInt8.ofNat n] from rfl, ← c.append_append]
  rfl

theorem require_bind_eq {α : Type} (p : Prop) [Decidable p] (m : Emit α) :
    (do Emit.require p; m : Emit α) c = if p then m c else none := by
  by_cases hp : p
  · rw [if_pos hp]
    unfold Emit.require
    rw [if_pos hp]
    rfl
  · rw [if_neg hp]
    unfold Emit.require
    rw [if_neg hp]
    rfl

end Runs

variable {is : List Instr} {p : ℕ}

theorem JumpAt.append (h : JumpAt is p) (js : List Instr) : JumpAt (is ++ js) p := by
  induction is generalizing p with
  | nil => exact h.elim
  | cons i is ih =>
    rcases h with h | ⟨hle, h⟩
    · exact .inl h
    · exact .inr ⟨hle, ih h⟩

theorem jumpAt_concat (is : List Instr) {i : Instr} (hi : i.layout = .jump) :
    JumpAt (is ++ [i]) ((encodeAll is).length + 1) := by
  induction is with
  | nil => exact .inl ⟨rfl, hi⟩
  | cons j is ih =>
    refine .inr ⟨?_, ?_⟩
    · rw [encodeAll_cons, length_append, Nat.add_assoc]
      exact Nat.le_add_right _ _
    · rw [encodeAll_cons, length_append, Nat.add_assoc]
      change JumpAt (is ++ [i]) (j.size + ((encodeAll is).length + 1) - j.size)
      rw [Nat.add_sub_cancel_left]
      exact ih

theorem JumpAt.setTarget {q : ℕ} (h : JumpAt is q) (p t : ℕ) : JumpAt (setTarget is p t) q := by
  induction is generalizing p q with
  | nil => exact h.elim
  | cons i is ih =>
    unfold SageOS.setTarget
    by_cases hp : p < i.size
    · rw [if_pos hp]
      cases i with
      | jump op t' => exact h
      | _ => exact h
    · rw [if_neg hp]
      rcases h with h | ⟨hle, h⟩
      · exact .inl h
      · exact .inr ⟨hle, ih h _⟩

theorem forall_mem_setTarget {P : Instr → Prop} (h : ∀ i ∈ is, P i) {t : ℕ}
    (hjump : ∀ op t', P (.jump op t') → P (.jump op t)) (p : ℕ) : ∀ i ∈ setTarget is p t, P i := by
  induction is generalizing p with
  | nil => exact h
  | cons i is ih =>
    obtain ⟨hi, his⟩ := forall_mem_cons.mp h
    unfold setTarget
    by_cases hp : p < i.size
    · rw [if_pos hp]
      refine forall_mem_cons.mpr ⟨?_, his⟩
      cases i with
      | jump op t' => exact hjump op t' hi
      | _ => exact hi
    · rw [if_neg hp]
      exact forall_mem_cons.mpr ⟨hi, ih his _⟩

theorem encodeAll_setTarget (h : JumpAt is p) (t : ℕ) : encodeAll (setTarget is p t) =
      ((encodeAll is).set p (UInt8.ofNat (t / 256))).set (p + 1) (UInt8.ofNat t) := by
  induction is generalizing p with
  | nil => exact h.elim
  | cons i is ih =>
    unfold setTarget
    rcases h with ⟨rfl, hi⟩ | ⟨hle, h⟩
    · cases i with
      | jump op t' => rfl
      | _ => cases hi
    · rw [if_neg (by omega), encodeAll_cons, ih h, encodeAll_cons]
      have hlen : i.encode.length = i.size := rfl
      rw [set_append_right _ _ (by omega), set_append_right _ _ (by omega), hlen,
        show p + 1 - i.size = p - i.size + 1 by omega]

theorem Mark.Holds.append {m : Mark} (h : m.Holds is) (js : List Instr) : m.Holds (is ++ js) := by
  cases m with
  | jump p => exact JumpAt.append h js
  | reached q =>
    change q ≤ _
    rw [encodeAll_append, length_append]
    exact Nat.le_add_right_of_le h

theorem length_setTarget (h : JumpAt is p) (t : ℕ) :
    (encodeAll (setTarget is p t)).length = (encodeAll is).length := by
  rw [encodeAll_setTarget h, length_set, length_set]

theorem Mark.Holds.setTarget {m : Mark} (h : m.Holds is)
    (hp : JumpAt is p) (t : ℕ) : m.Holds (setTarget is p t) := by
  cases m with
  | jump q => exact JumpAt.setTarget h p t
  | reached q =>
    change q ≤ _
    rw [length_setTarget hp]
    exact h

theorem Coded.append {c : BytecodeCompiler} (hc : Coded c is) {i : Instr}
    (hi : i.Fits c.chunk.constants.length) (ht : ∀ t ∈ i.target, t ≤ c.chunk.code.length) :
    Coded (c.append i.encode) (is ++ [i]) := by
  have hlen : (encodeAll is).length ≤ (encodeAll (is ++ [i])).length := by
    rw [encodeAll_append, length_append]
    exact Nat.le_add_right _ _
  refine ⟨?_, fun j hj => ?_, fun j hj t htj => ?_,
    fun loop hl m hm => (hc.loops loop hl m hm).append _⟩
  · rw [encodeAll_append, ← hc.code]
    exact congrArg (c.chunk.code ++ ·) (append_nil _).symm
  · rcases mem_append.mp hj with hj | hj
    · exact hc.fits j hj
    · exact mem_singleton.mp hj ▸ hi
  · rcases mem_append.mp hj with hj | hj
    · exact (hc.targets j hj t htj).trans hlen
    · rw [hc.code] at ht
      exact (ht t (mem_singleton.mp hj ▸ htj)).trans hlen

namespace Coding
variable {J : Set Mark} {c : BytecodeCompiler}
section
variable (h : Coding J c)

include h

theorem append {i : Instr} (hi : i.Fits c.chunk.constants.length)
    (ht : ∀ t ∈ i.target, t ≤ c.chunk.code.length) : Coding J (c.append i.encode) := by
  obtain ⟨is, hc, hJ⟩ := h
  exact ⟨is ++ [i], hc.append hi ht, fun m hm => (hJ m hm).append _⟩

theorem appendJump {op : OpCode} (hop : op.layout = some .jump) :
    Coding (insert (.jump (c.chunk.code.length + 1)) J) (c.append (Instr.jump op 0).encode) := by
  obtain ⟨is, hc, hJ⟩ := h
  have hfits : (Instr.jump op 0).Fits c.chunk.constants.length := ⟨hop, by omega⟩
  have htarget : ∀ t ∈ (Instr.jump op 0).target, t ≤ c.chunk.code.length := by
    rintro t ⟨⟩
    exact Nat.zero_le _
  refine ⟨is ++ [.jump op 0], hc.append hfits htarget, ?_⟩
  rintro m (rfl | hm)
  · rw [hc.code]
    exact jumpAt_concat is rfl
  · exact (hJ m hm).append _

theorem withConst (v : BytecodeConst) : Coding J (c.withConst v) := by
  obtain ⟨is, hc, hJ⟩ := h
  refine ⟨is, ⟨hc.code, fun i hi => (hc.fits i hi).mono ?_, hc.targets, hc.loops⟩, hJ⟩
  unfold BytecodeCompiler.withConst
  rw [length_append]
  exact Nat.le_add_right _ _

theorem patch {p : ℕ} (hp : .jump p ∈ J) {t : ℕ} (ht : t ≤ c.chunk.code.length) :
    Coding J { c with chunk := { c.chunk with
      code := (c.chunk.code.set p (UInt8.ofNat (t / 256))).set (p + 1) (UInt8.ofNat t) } } := by
  obtain ⟨is, hc, hJ⟩ := h
  have hjump : JumpAt is p := hJ _ hp
  have hbytes : u16 (t % 65536) = u16 t := u16_mod t
  simp only [u16, List.cons.injEq, and_true] at hbytes
  have hmod : t % 65536 ≤ (encodeAll is).length := by
    rw [← hc.code]
    exact (Nat.mod_le _ _).trans ht
  refine ⟨setTarget is p (t % 65536), ⟨?_, forall_mem_setTarget hc.fits (fun op _ hi => ?_) p, ?_,
    fun loop hl m hm => (hc.loops loop hl m hm).setTarget hjump _⟩,
    fun m hm => (hJ m hm).setTarget hjump _⟩
  · rw [encodeAll_setTarget hjump, ← hc.code, hbytes.1, hbytes.2]
  · exact ⟨hi.1, Nat.mod_lt _ (by omega)⟩
  · rw [length_setTarget hjump]
    refine forall_mem_setTarget hc.targets (fun _ _ _ => ?_) p
    rintro u ⟨⟩
    exact hmod

theorem mono {K : Set Mark} (hK : K ⊆ J) : Coding K c := by
  obtain ⟨is, hc, hJ⟩ := h
  exact ⟨is, hc, fun m hm => hJ m (hK hm)⟩

theorem reached : Coding (insert (.reached c.chunk.code.length) J) c := by
  obtain ⟨is, hc, hJ⟩ := h
  refine ⟨is, hc, ?_⟩
  rintro m (rfl | hm)
  · exact hc.code ▸ le_rfl
  · exact hJ m hm

theorem le_of_reached {q : ℕ} (hq : .reached q ∈ J) : q ≤ c.chunk.code.length := by
  obtain ⟨is, hc, hJ⟩ := h
  rw [hc.code]
  exact hJ _ hq

end
end Coding
end SageOS
