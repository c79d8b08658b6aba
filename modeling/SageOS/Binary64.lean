import Mathlib.Tactic

/-!
# Binary64 numbers as bit patterns

The fields of a double, its integral part, and the conversions to a 64-bit size and a 32-bit
integer, with the results of x86-64 where the value does not fit. The integral part of a double is
a multiple of 2048 from 2 ^ 63 on, so a size that comes from a non-negative double leaves room for
a small addend.
-/
namespace Binary64
variable (b : UInt64)

def sign : Bool := 2 ^ 63 ≤ b.toNat

def exponentField : ℕ := b.toNat / 2 ^ 52 % 2 ^ 11

def fraction : ℕ := b.toNat % 2 ^ 52

def significand : ℕ := if exponentField b = 0 then fraction b else fraction b + 2 ^ 52

/-- The integral part of the absolute value of a finite number. -/
def magnitude : ℕ :=
  if 1075 ≤ exponentField b then significand b * 2 ^ (exponentField b - 1075)
  else significand b / 2 ^ (1075 - max (exponentField b) 1)

def isFinite : Prop := exponentField b ≠ 2047

def isNaN : Prop := exponentField b = 2047 ∧ fraction b ≠ 0

/-- The comparison with zero: false for minus zero and for a NaN. -/
def isNegative : Prop := sign b = true ∧ ¬ isNaN b ∧ b.toNat ≠ 2 ^ 63

instance : Decidable (isFinite b) := inferInstanceAs (Decidable (_ ≠ _))
instance : Decidable (isNaN b) := inferInstanceAs (Decidable (_ ∧ _))
instance : Decidable (isNegative b) := inferInstanceAs (Decidable (_ ∧ _))

def toSize : ℕ :=
  if sign b then
    if isFinite b ∧ magnitude b ≤ 2 ^ 63 then (2 ^ 64 - magnitude b) % 2 ^ 64 else 2 ^ 63
  else if isFinite b ∧ magnitude b < 2 ^ 64 then magnitude b
  else 0

def toInt32 : ℤ :=
  let n : ℤ := if sign b then -(magnitude b : ℤ) else magnitude b
  if isFinite b ∧ -2 ^ 31 ≤ n ∧ n < 2 ^ 31 then n else -2 ^ 31

theorem significand_lt : significand b < 2 ^ 53 := by
  have hfraction : fraction b < 2 ^ 52 := Nat.mod_lt _ (by positivity)
  unfold significand
  split_ifs <;> omega

theorem magnitude_le (h : magnitude b < 2 ^ 64) : magnitude b ≤ 2 ^ 64 - 2048 := by
  have hsig := significand_lt b
  unfold magnitude at h ⊢
  split_ifs at h ⊢ with hexp
  · obtain hsmall | ⟨k, hk⟩ :
        exponentField b - 1075 ≤ 10 ∨ ∃ k, exponentField b - 1075 = 11 + k := by
      rcases Nat.lt_or_ge (exponentField b - 1075) 11 with hlt | hge
      · exact .inl (by omega)
      · exact .inr ⟨_, (Nat.add_sub_cancel' hge).symm⟩
    · have hpow : 2 ^ (exponentField b - 1075) ≤ 2 ^ 10 := Nat.pow_le_pow_right (by norm_num) hsmall
      have hmul := Nat.mul_le_mul hsig.le hpow
      omega
    · rw [hk, pow_add, ← mul_assoc, mul_right_comm] at h ⊢
      omega
  · have hdiv := Nat.div_le_self (significand b) (2 ^ (1075 - max (exponentField b) 1))
    omega

theorem magnitude_minus_zero (h : b.toNat = 2 ^ 63) : magnitude b = 0 := by
  have hsig : significand b = 0 := by simp [significand, exponentField, fraction, h]
  rw [magnitude, hsig, Nat.zero_mul, Nat.zero_div, ite_self]

theorem toSize_le (h : ¬ isNegative b) : toSize b ≤ 2 ^ 64 - 2048 := by
  unfold toSize
  split_ifs with hsign hfits hfits
  · have hzero : b.toNat = 2 ^ 63 := by
      by_contra hne
      refine h ⟨hsign, ?_, hne⟩
      intro hnan
      exact hfits.1 hnan.1
    rw [magnitude_minus_zero b hzero]
    norm_num
  · norm_num
  · exact magnitude_le b hfits.2
  · norm_num

end Binary64
