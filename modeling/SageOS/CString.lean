import Mathlib.Data.List.TakeWhile
import Mathlib.Data.List.Infix
import Mathlib.Tactic

/-!
# C strings and integers

A string argument is a `CStr`, the list of its bytes before the terminating NUL, so that reading
index `i` of it is `List.getD i 0`. A fixed character buffer is a `CString n`, which carries the
fact that a terminated string fits in it. The comparison functions follow the loops of the C
library and are related to list prefixes.
-/
namespace SageOS
open List

abbrev Bytes := List UInt8

def bytes (s : String) : Bytes := s.toList.map (fun c => c.toNat.toUInt8)

/-- A terminated string in memory: the bytes before its terminator. -/
structure CStr where
  chars : Bytes
  nul_free : 0 ∉ chars
  deriving DecidableEq

/-- A buffer `char buf[n]` that holds a terminated string. -/
structure CString (n : ℕ) extends CStr where
  length_lt : chars.length < n
  deriving DecidableEq

-- One instance for each buffer size of the source, found alike in every module.
instance neZero32 : NeZero 32 := ⟨by decide⟩
instance neZero64 : NeZero 64 := ⟨by decide⟩
instance neZero128 : NeZero 128 := ⟨by decide⟩
instance neZero256 : NeZero 256 := ⟨by decide⟩

/-- `strncpy` into a buffer of `n` bytes whose last byte is NUL. -/
def strncpy (n : ℕ) [NeZero n] (s : Bytes) : CString n where
  chars := (s.takeWhile (· ≠ 0)).take (n - 1)
  length_lt := by
    have := NeZero.pos n
    simp only [length_take]
    omega
  nul_free h := by simpa using List.mem_takeWhile_imp (List.mem_of_mem_take h)

def strncmp : Bytes → Bytes → ℕ → ℤ
  | _, _, 0 => 0
  | a, b, n + 1 =>
    if a.headD 0 = b.headD 0 then if a.headD 0 = 0 then 0 else strncmp a.tail b.tail n
    else ((a.headD 0).toNat : ℤ) - (b.headD 0).toNat

/-- `strcmp` compares up to and including the terminator of the second string. -/
def strcmp (a b : Bytes) : ℤ := strncmp a b (b.length + 1)

def toCInt (n : ℕ) : ℤ := (BitVec.ofNat 32 n).toInt

theorem toCInt_of_lt {n : ℕ} (h : n < 2 ^ 31) : toCInt n = n := by
  unfold toCInt
  rw [BitVec.toInt_eq_toNat_of_lt] <;> simp <;> omega

theorem toCInt_lt (n : ℕ) : toCInt n < 2 ^ 31 := by
  exact BitVec.toInt_lt

theorem strncmp_ne_zero_of_head_ne {x y : UInt8} (h : x ≠ y) : ((x.toNat : ℤ) - y.toNat) ≠ 0 := by
  intro he
  apply h
  apply UInt8.toNat_inj.mp
  omega

theorem strncmp_length_add_eq_zero_iff (a b : Bytes) (hb : 0 ∉ b) (n : ℕ) :
    strncmp a b (b.length + n) = 0 ↔ b <+: a ∧ strncmp (a.drop b.length) [] n = 0 := by
  induction b generalizing a with
  | nil => simp
  | cons y b ih =>
    obtain ⟨hy, hrest⟩ := not_or.mp (mem_cons.not.mp hb)
    rw [length_cons, Nat.add_right_comm, strncmp]
    cases a with
    | nil => simpa [hy] using strncmp_ne_zero_of_head_ne hy
    | cons x a =>
      by_cases hxy : x = y
      · subst hxy
        simp [Ne.symm hy, ih a hrest]
      · simpa [hxy, Ne.symm hxy] using strncmp_ne_zero_of_head_ne hxy

theorem strncmp_length_eq_zero_iff (a b : Bytes) (hb : 0 ∉ b) :
    strncmp a b b.length = 0 ↔ b <+: a :=
  (strncmp_length_add_eq_zero_iff a b hb 0).trans (and_iff_left rfl)

theorem strcmp_eq_zero_iff (a b : Bytes) (hb : 0 ∉ b) :
    strcmp a b = 0 ↔ b <+: a ∧ a.getD b.length 0 = 0 := by
  refine (strncmp_length_add_eq_zero_iff a b hb 1).trans (and_congr_right fun _ => ?_)
  have hhead : (a.drop b.length).headD 0 = a.getD b.length 0 := by
    rw [headD_eq_head?_getD, head?_drop, getD_eq_getElem?_getD]
  rw [strncmp, hhead]
  generalize a.getD b.length 0 = x
  by_cases hx : x = 0
  · simp [hx]
  · simpa [hx] using strncmp_ne_zero_of_head_ne hx

end SageOS
