import Mathlib.Data.Finset.Card
import Mathlib.Logic.Relation

/-!
# Marking by depth-first search

The marker visits the successors of every node that it marks. Recursion is bounded by fuel, and
fuel above the number of unmarked nodes is enough: then everything that was marked on the way has
its successors marked, and nothing is marked that does not belong to every closed set around the
start.
-/
namespace Marking
open List
variable {N : Type*} (next : N → List N)

/-- `M'` is a complete result of marking from the nodes `ns` on top of `M`. -/
structure Marks (M : Finset N) (ns : List N) (M' : Finset N) : Prop where
  subset : M ⊆ M'
  start : ∀ n ∈ ns, n ∈ M'
  closed : ∀ x ∈ M', x ∉ M → ∀ y ∈ next x, y ∈ M'
  least : ∀ S : Set N, (∀ x ∈ S, ∀ y ∈ next x, y ∈ S) → (∀ n ∈ ns, n ∈ S) →
    ∀ x ∈ M', x ∈ M ∨ x ∈ S

namespace Marks
variable {next} {M M₁ M' : Finset N} {n : N} {ns : List N}

theorem nil (M : Finset N) : Marks next M [] M where
  subset := Finset.Subset.refl M
  start _ hn := absurd hn not_mem_nil
  closed _ hx hM := absurd hx hM
  least _ _ _ _ hx := Or.inl hx

theorem of_mem (hn : n ∈ M) : Marks next M [n] M where
  subset := Finset.Subset.refl M
  start _ hx := mem_singleton.mp hx ▸ hn
  closed _ hx hM := absurd hx hM
  least _ _ _ _ hx := Or.inl hx

theorem cons (h : Marks next M [n] M₁) (h' : Marks next M₁ ns M') : Marks next M (n :: ns) M' where
  subset := h.subset.trans h'.subset
  start x hx := by
    rcases mem_cons.mp hx with rfl | hx
    · exact h'.subset (h.start x mem_cons_self)
    · exact h'.start x hx
  closed x hx hM y hy := by
    by_cases hx₁ : x ∈ M₁
    · exact h'.subset (h.closed x hx₁ hM y hy)
    · exact h'.closed x hx hx₁ y hy
  least S hS hns x hx := by
    rcases h'.least S hS (fun m hm => hns m (mem_cons_of_mem n hm)) x hx with hx | hx
    · exact h.least S hS (fun m hm => hns m (mem_singleton.mp hm ▸ mem_cons_self)) x hx
    · exact .inr hx

variable [DecidableEq N]

theorem of_successors (h : Marks next (insert n M) (next n) M') : Marks next M [n] M' where
  subset := (Finset.subset_insert n M).trans h.subset
  start _ hx := mem_singleton.mp hx ▸ h.subset (Finset.mem_insert_self n M)
  closed x hx hM y hy := by
    by_cases hxn : x = n
    · subst hxn
      exact h.start y hy
    · exact h.closed x hx (by simp [hxn, hM]) y hy
  least S hS hn x hx := by
    have hnS : n ∈ S := hn n mem_cons_self
    rcases h.least S hS (hS n hnS) x hx with hx | hx
    · rcases Finset.mem_insert.mp hx with rfl | hx
      · exact .inr hnS
      · exact .inl hx
    · exact .inr hx

end Marks

variable [DecidableEq N]

def mark : ℕ → Finset N → N → Finset N
  | 0, M, _ => M
  | fuel + 1, M, n => if n ∈ M then M else (next n).foldl (mark fuel) (insert n M)

variable {next}

/-- The fuel is enough when it exceeds the number of unmarked nodes. -/
theorem marks_foldl {U : Finset N} (hU : ∀ x ∈ U, ∀ y ∈ next x, y ∈ U) {fuel : ℕ} {M : Finset N}
    {ns : List N} (hns : ∀ n ∈ ns, n ∈ U) (hfuel : (U \ M).card < fuel) :
    Marks next M ns (ns.foldl (mark next fuel) M) := by
  induction fuel generalizing M ns with
  | zero => exact absurd hfuel (Nat.not_lt_zero _)
  | succ fuel ih =>
    induction ns generalizing M with
    | nil => exact Marks.nil M
    | cons n ns ihns =>
      have hn : n ∈ U := hns n mem_cons_self
      have hone : Marks next M [n] (mark next (fuel + 1) M n) := by
        unfold mark
        by_cases hM : n ∈ M
        · rw [if_pos hM]
          exact Marks.of_mem hM
        · rw [if_neg hM]
          have hless : (U \ insert n M).card < (U \ M).card := by
            apply Finset.card_lt_card
            rw [Finset.ssubset_iff_of_subset
              (Finset.sdiff_subset_sdiff (Finset.Subset.refl U) (Finset.subset_insert n M))]
            exact ⟨n, by simp [hn, hM]⟩
          exact Marks.of_successors (ih (hU n hn) (by omega))
      have hcard : (U \ mark next (fuel + 1) M n).card ≤ (U \ M).card :=
        Finset.card_le_card (Finset.sdiff_subset_sdiff (Finset.Subset.refl U) hone.subset)
      exact hone.cons (ihns (fun m hm => hns m (mem_cons_of_mem n hm)) (by omega))

end Marking
