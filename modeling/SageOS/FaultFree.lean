import Mathlib.Tactic

/-!
# Computations without a fault

`Succeeds m Q` says that a computation that may fail does not fail and that its result satisfies
`Q`. There is one rule for every way of building such a computation, and each rule is an
equivalence, so that what a program needs in order not to fail can be read off its text.
-/
namespace FaultFree
variable {ε α β : Type}

/-- The computation ends without a fault, with a result in `Q`. -/
def Succeeds (m : Except ε α) (Q : α → Prop) : Prop :=
  match m with
  | .ok a => Q a
  | .error _ => False

namespace Succeeds

@[simp] theorem pure_iff (a : α) (Q : α → Prop) : Succeeds (pure a : Except ε α) Q ↔ Q a := Iff.rfl

@[simp] theorem throw_iff (e : ε) (Q : α → Prop) :
    Succeeds (throw e : Except ε α) Q ↔ False := Iff.rfl

@[simp] theorem bind_iff (m : Except ε α) (f : α → Except ε β) (Q : β → Prop) :
    Succeeds (m >>= f) Q ↔ Succeeds m fun a => Succeeds (f a) Q := by
  cases m with
  | ok a => rfl
  | error e => rfl

theorem guard_iff {p : Prop} [Decidable p] (e : ε) (Q : Unit → Prop) :
    Succeeds (if p then pure () else throw e : Except ε Unit) Q ↔ p ∧ Q () := by
  by_cases h : p
  · simp [h]
  · simp [h]

theorem congr {m : Except ε α} {Q R : α → Prop} (h : ∀ a, Q a ↔ R a) :
    Succeeds m Q ↔ Succeeds m R := by
  cases m with
  | ok a => exact h a
  | error e => exact Iff.rfl

theorem const_iff (m : Except ε α) (p : Prop) :
    Succeeds m (fun _ => p) ↔ Succeeds m (fun _ => True) ∧ p := by
  cases m with
  | ok a => exact (and_iff_right trivial).symm
  | error e => exact iff_of_false not_false fun h => h.1

end Succeeds

def repeatFrom (body : ℕ → Except ε Unit) : ℕ → ℕ → Except ε Unit
  | 0, _ => pure ()
  | n + 1, j => do
    body j
    repeatFrom body n (j + 1)

theorem succeeds_repeatFrom {body : ℕ → Except ε Unit} {p : ℕ → Prop}
    (hbody : ∀ j Q, Succeeds (body j) Q ↔ p j ∧ Q ()) (n j : ℕ) (Q : Unit → Prop) :
    Succeeds (repeatFrom body n j) Q ↔ (∀ i, j ≤ i → i < j + n → p i) ∧ Q () := by
  induction n generalizing j with
  | zero =>
    have hnone : ∀ i, j ≤ i → i < j + 0 → p i := fun i hle hlt => by omega
    exact (and_iff_right hnone).symm
  | succ n ih =>
    unfold repeatFrom
    rw [Succeeds.bind_iff, hbody, ih (j + 1), ← and_assoc]
    apply and_congr_left
    intro _
    constructor
    · rintro ⟨hj, hrest⟩ i hle hlt
      rcases Nat.eq_or_lt_of_le hle with rfl | hlt'
      · exact hj
      · exact hrest i hlt' (by omega)
    · intro hall
      exact ⟨hall j le_rfl (by omega), fun i hle hlt => hall i (by omega) (by omega)⟩

end FaultFree
