import SageOS.GuardedRun

/-!
# The bitmap of physical frames

A bit of the bitmap says that a frame is reserved or in use. Booting sets every bit, clears those
of the frames from one megabyte up to the end of memory, and sets those of the pages of the kernel.
Addresses are 64 bits wide and wrap around. An index behind the bitmap is not resolved to a value,
and a loop is run for a number of passes, after which it may still be running.
-/
namespace SageOS
open Function

def pageSize : ℕ := 4096
def maxFrames : ℕ := 32768
def bitmapSize : ℕ := 4096

structure BootInfo where
  memoryTotal : UInt64
  kernelBase : UInt64
  kernelSize : UInt64
  deriving DecidableEq, Repr

structure Pmm where
  bitmap : ℕ → BitVec 8
  totalFrames : ℕ := 0
  usedFrames : UInt64 := 0

namespace Pmm

/-- Sets the bit of a frame; there is no result when the index is behind the bitmap. -/
def setFrame (s : Pmm) (frame : ℕ) : Option Pmm :=
  if frame / 8 < bitmapSize then
    let byte := s.bitmap (frame / 8) ||| (1#8 <<< (frame % 8))
    some { s with bitmap := update s.bitmap (frame / 8) byte }
  else none

def unsetFrame (s : Pmm) (frame : ℕ) : Option Pmm :=
  if frame / 8 < bitmapSize then
    let byte := s.bitmap (frame / 8) &&& ~~~(1#8 <<< (frame % 8))
    some { s with bitmap := update s.bitmap (frame / 8) byte }
  else none

def isFrameSet (s : Pmm) (frame : ℕ) : Option Bool :=
  if frame / 8 < bitmapSize then
    some (s.bitmap (frame / 8) &&& (1#8 <<< (frame % 8)) != 0#8)
  else none

/-- `for (addr = start; addr < stop; addr += PAGE_SIZE)`: `none` while it is still running, and
`some none` when an index was behind the bitmap. -/
def eachPage (body : UInt64 → Pmm → Option Pmm) (stop : UInt64) :
    ℕ → UInt64 → Pmm → Option (Option Pmm)
  | 0, _, _ => none
  | n + 1, addr, s =>
    if addr < stop then
      match body addr s with
      | none => some none
      | some s => eachPage body stop n (addr + 4096) s
    else some (some s)

def freeUsable (addr : UInt64) (s : Pmm) : Option Pmm :=
  if addr.toNat / pageSize < s.totalFrames then s.unsetFrame (addr.toNat / pageSize) else some s

def reservePage (addr : UInt64) (s : Pmm) : Option Pmm := s.setFrame (addr.toNat / pageSize)

def physInit (fuel : ℕ) (info : BootInfo) (s : Pmm) : Option (Option Pmm) :=
  let s := { s with
    bitmap := fun i => if i < bitmapSize then 0xFF#8 else s.bitmap i
    totalFrames := min (info.memoryTotal.toNat / pageSize) maxFrames }
  match eachPage freeUsable info.memoryTotal fuel 0x100000 s with
  | none => none
  | some none => some none
  | some (some s) =>
    eachPage reservePage (info.kernelBase + info.kernelSize) fuel info.kernelBase s

/-- The search of `phys_alloc` over `n` more frames; the address is null when there is none. -/
def allocFrom (s : Pmm) : ℕ → ℕ → Option (Pmm × ℕ)
  | 0, _ => some (s, 0)
  | n + 1, i => do
    if ← s.isFrameSet i then allocFrom s n (i + 1)
    else
      let s ← s.setFrame i
      pure ({ s with usedFrames := s.usedFrames + 1 }, i * pageSize)

def physAlloc (s : Pmm) : Option (Pmm × ℕ) := s.allocFrom s.totalFrames 0

def physFree (s : Pmm) (addr : ℕ) : Option Pmm :=
  if addr / pageSize < s.totalFrames then do
    let s ← s.unsetFrame (addr / pageSize)
    pure { s with usedFrames := s.usedFrames - 1 }
  else some s

def Marked (s : Pmm) (frame : ℕ) : Prop := (s.bitmap (frame / 8)).getLsbD (frame % 8) = true

section Bits

theorem and_bit_ne_zero (byte : BitVec 8) {k : ℕ} (hk : k < 8) :
    (byte &&& (1#8 <<< k) != 0#8) = byte.getLsbD k := by
  have hne : BitVec.twoPow 8 k ≠ 0#8 := by
    intro hzero
    have hone := congrArg (BitVec.getLsbD · k) hzero
    simp [hk] at hone
  rw [← BitVec.twoPow_eq, BitVec.and_twoPow]
  cases byte.getLsbD k <;> simp [hne]

theorem getLsbD_or_bit (byte : BitVec 8) (k : ℕ) {j : ℕ} (hj : j < 8) :
    (byte ||| (1#8 <<< k)).getLsbD j = true ↔ j = k ∨ byte.getLsbD j = true := by
  rw [← BitVec.twoPow_eq]
  by_cases hjk : j = k
  · simp [← hjk, hj]
  · simp [hjk, Ne.symm hjk]

theorem getLsbD_and_not_bit (byte : BitVec 8) (k : ℕ) {j : ℕ} (hj : j < 8) :
    (byte &&& ~~~(1#8 <<< k)).getLsbD j = true ↔ j ≠ k ∧ byte.getLsbD j = true := by
  rw [← BitVec.twoPow_eq]
  by_cases hjk : j = k
  · simp [← hjk, hj]
  · simp [hjk, hj]

end Bits

variable {frame : ℕ}

theorem index_lt (h : frame < maxFrames) : frame / 8 < bitmapSize := by
  unfold maxFrames at h
  unfold bitmapSize
  omega

theorem isFrameSet_eq (s : Pmm) (h : frame < maxFrames) :
    ∃ b, s.isFrameSet frame = some b ∧ (b = true ↔ s.Marked frame) := by
  refine ⟨_, if_pos (index_lt h), ?_⟩
  rw [and_bit_ne_zero _ (Nat.mod_lt _ (by omega))]
  rfl

structure Marks (s t : Pmm) (frame : ℕ) (mark : Prop) : Prop where
  frames : t.totalFrames = s.totalFrames
  here : t.Marked frame ↔ mark
  other : ∀ other, other ≠ frame → (t.Marked other ↔ s.Marked other)

theorem setFrame_spec (s : Pmm) (h : frame < maxFrames) :
    ∃ t, s.setFrame frame = some t ∧ Marks s t frame True := by
  refine ⟨_, if_pos (index_lt h), rfl, ?_, fun other hne => ?_⟩
  · unfold Marked
    dsimp only
    rw [update_self, getLsbD_or_bit _ _ (Nat.mod_lt _ (by omega))]
    exact iff_of_true (.inl rfl) trivial
  · unfold Marked
    dsimp only
    by_cases hbyte : other / 8 = frame / 8
    · have hbit : other % 8 ≠ frame % 8 := by omega
      rw [hbyte, update_self, getLsbD_or_bit _ _ (Nat.mod_lt _ (by omega))]
      exact or_iff_right hbit
    · rw [update_of_ne hbyte]

theorem unsetFrame_spec (s : Pmm) (h : frame < maxFrames) :
    ∃ t, s.unsetFrame frame = some t ∧ Marks s t frame False := by
  refine ⟨_, if_pos (index_lt h), rfl, ?_, fun other hne => ?_⟩
  · unfold Marked
    dsimp only
    rw [update_self, getLsbD_and_not_bit _ _ (Nat.mod_lt _ (by omega))]
    exact iff_of_false (fun h => h.1 rfl) not_false
  · unfold Marked
    dsimp only
    by_cases hbyte : other / 8 = frame / 8
    · have hbit : other % 8 ≠ frame % 8 := by omega
      rw [hbyte, update_self, getLsbD_and_not_bit _ _ (Nat.mod_lt _ (by omega))]
      exact and_iff_right hbit
    · rw [update_of_ne hbyte]

theorem setFrame_eq_none (s : Pmm) (h : maxFrames ≤ frame) : s.setFrame frame = none := by
  apply if_neg
  unfold maxFrames at h
  unfold bitmapSize
  omega

theorem allocFrom_spec (s : Pmm) (n i : ℕ) (h : i + n ≤ maxFrames) :
    (s.allocFrom n i = some (s, 0) ∧ ∀ f, i ≤ f → f < i + n → s.Marked f) ∨
      ∃ f t, s.allocFrom n i = some (t, f * pageSize) ∧ Marks s t f True ∧ i ≤ f ∧ f < i + n ∧
        ¬ s.Marked f ∧ ∀ g, i ≤ g → g < f → s.Marked g := by
  induction n generalizing i with
  | zero => exact .inl ⟨rfl, fun f hi hf => by omega⟩
  | succ n ih =>
    obtain ⟨b, hb, hmark⟩ := s.isFrameSet_eq (show i < maxFrames by omega)
    unfold allocFrom
    rw [hb]
    cases b with
    | true =>
      have hi : s.Marked i := hmark.mp rfl
      rcases ih (i + 1) (by omega) with ⟨hnone, hall⟩ | ⟨f, t, hsome, hmarks, hle, hlt, hf, hall⟩
      · refine .inl ⟨hnone, fun f hle hlt => ?_⟩
        rcases Nat.eq_or_lt_of_le hle with rfl | hlt'
        · exact hi
        · exact hall f hlt' (by omega)
      · refine .inr ⟨f, t, hsome, hmarks, by omega, by omega, hf, fun g hle hg => ?_⟩
        rcases Nat.eq_or_lt_of_le hle with rfl | hlt'
        · exact hi
        · exact hall g hlt' hg
    | false =>
      have hi : ¬ s.Marked i := fun h => Bool.false_ne_true (hmark.mpr h)
      obtain ⟨t, ht, hmarks⟩ := s.setFrame_spec (show i < maxFrames by omega)
      refine .inr ⟨i, { t with usedFrames := t.usedFrames + 1 }, ?_,
        ⟨hmarks.frames, hmarks.here, hmarks.other⟩, le_rfl, by omega, hi,
        fun g hle hg => by omega⟩
      simp [ht]

end Pmm
end SageOS
