import Mathlib.Data.List.Basic
import Mathlib.Tactic

/-!
# Graphs that are followed by tokens

`follow δ s ts` goes from node `s` along the edges labelled by the tokens of `ts`. `LoopTree` is a
graph in which every node but the root has one incoming edge and the root has one to itself: paths
that differ in leading copies of its label end in the same node, and no others do.
-/
namespace PathGraph
open List Option
variable {σ τ : Type} {δ δ' : σ → τ → Option σ} {s n root : σ} {a t : τ} {ts us : List τ}

def follow (δ : σ → τ → Option σ) (s : σ) (ts : List τ) : Option σ := ts.foldlM δ s

@[simp] theorem follow_nil : follow δ s [] = some s := rfl

theorem follow_cons : follow δ s (t :: ts) = (δ s t).bind fun m => follow δ m ts :=
  foldlM_cons

theorem follow_append : follow δ s (ts ++ us) = (follow δ s ts).bind fun m => follow δ m us :=
  foldlM_append

theorem follow_concat_eq_some_iff :
    follow δ s (ts ++ [t]) = some n ↔ ∃ m, follow δ s ts = some m ∧ δ m t = some n := by
  rw [follow_append, bind_eq_some_iff]
  simp only [follow_cons, follow_nil, bind_fun_some]

/-- `δ'` has at least the edges of `δ`. -/
def Sub (δ δ' : σ → τ → Option σ) : Prop := ∀ s t n, δ s t = some n → δ' s t = some n

theorem Sub.follow (h : Sub δ δ') (hts : follow δ s ts = some n) : follow δ' s ts = some n := by
  induction ts generalizing s with
  | nil => exact hts
  | cons t ts ih =>
    rw [follow_cons, bind_eq_some_iff] at hts
    obtain ⟨m, hm, hrest⟩ := hts
    rw [follow_cons, h s t m hm]
    exact ih hrest

/-- `δ'` has the edges of `δ` and one more. -/
structure Grows (δ δ' : σ → τ → Option σ) (s : σ) (t : τ) (n : σ) : Prop where
  missing : δ s t = none
  edge : δ' s t = some n
  other : ∀ s' t', (s', t') ≠ (s, t) → δ' s' t' = δ s' t'

namespace Grows

theorem sub (h : Grows δ δ' s t n) : Sub δ δ' := by
  intro s' t' n' hedge
  have hne : (s', t') ≠ (s, t) := by
    rintro heq
    obtain ⟨rfl, rfl⟩ := Prod.mk.inj heq
    rw [h.missing] at hedge
    cases hedge
  rw [h.other s' t' hne, hedge]

theorem cases (h : Grows δ δ' s t n) {s' n' : σ} {t' : τ} (hedge : δ' s' t' = some n') :
    (s' = s ∧ t' = t ∧ n' = n) ∨ δ s' t' = some n' := by
  by_cases hne : (s', t') = (s, t)
  · obtain ⟨rfl, rfl⟩ := Prod.mk.inj hne
    rw [h.edge] at hedge
    exact .inl ⟨rfl, rfl, (some.inj hedge).symm⟩
  · rw [h.other s' t' hne] at hedge
    exact .inr hedge

end Grows

/-- A path in the larger graph to a node that is not new is a path in the smaller one, when the new
node is a leaf. -/
theorem Grows.follow_old (h : Grows δ δ' s t n) (hleaf : ∀ u, δ' n u = none) {m : σ} (hm : m ≠ n)
    {r : σ} (hts : follow δ' r ts = some m) : follow δ r ts = some m := by
  induction ts generalizing r with
  | nil => exact hts
  | cons u ts ih =>
    rw [follow_cons, bind_eq_some_iff] at hts
    obtain ⟨q, hq, hrest⟩ := hts
    rcases h.cases hq with ⟨rfl, rfl, rfl⟩ | hold
    · cases ts with
      | nil => exact absurd (some.inj hrest).symm hm
      | cons v ts =>
        rw [follow_cons, hleaf] at hrest
        cases hrest
    · rw [follow_cons, hold]
      exact ih hrest

/-- Every node but the root has at most one incoming edge, and the root has the loop `a`. -/
structure LoopTree (δ : σ → τ → Option σ) (root : σ) (a : τ) : Prop where
  loop : δ root a = some root
  root_edge : ∀ s t, δ s t = some root → s = root ∧ t = a
  unique : ∀ s t s' t' n, n ≠ root → δ s t = some n → δ s' t' = some n → s = s' ∧ t = t'

namespace LoopTree

theorem grows (h : LoopTree δ root a) (hg : Grows δ δ' s t n) (hn : n ≠ root)
    (hnew : ∀ s t, δ s t ≠ some n) : LoopTree δ' root a where
  loop := hg.sub _ _ _ h.loop
  root_edge s' t' hedge := by
    rcases hg.cases hedge with ⟨-, -, hroot⟩ | hold
    · exact absurd hroot.symm hn
    · exact h.root_edge s' t' hold
  unique s₁ t₁ s₂ t₂ m hm h₁ h₂ := by
    rcases hg.cases h₁ with ⟨rfl, rfl, rfl⟩ | hold₁ <;>
      rcases hg.cases h₂ with ⟨rfl, rfl, heq⟩ | hold₂
    · exact ⟨rfl, rfl⟩
    · exact absurd hold₂ (hnew _ _)
    · rw [heq] at hold₁
      exact absurd hold₁ (hnew _ _)
    · exact h.unique s₁ t₁ s₂ t₂ m hm hold₁ hold₂

theorem eq_nil_of_follow_root (h : LoopTree δ root a) (hhead : ts.head? ≠ some a)
    (hts : follow δ root ts = some root) : ts = [] := by
  induction ts using List.reverseRecOn with
  | nil => rfl
  | append_singleton us t ih =>
    obtain ⟨m, hm, hedge⟩ := follow_concat_eq_some_iff.mp hts
    obtain ⟨rfl, rfl⟩ := h.root_edge m t hedge
    cases us with
    | nil => exact absurd rfl hhead
    | cons u us => cases ih hhead hm

theorem eq_of_follow (h : LoopTree δ root a) (hts : ts.head? ≠ some a) (hus : us.head? ≠ some a)
    (hfollow : follow δ root ts = some n) (hfollow' : follow δ root us = some n) : ts = us := by
  induction ts using List.reverseRecOn generalizing us n with
  | nil =>
    obtain rfl := some.inj hfollow
    exact (h.eq_nil_of_follow_root hus hfollow').symm
  | append_singleton ts t ih =>
    by_cases hroot : n = root
    · rw [hroot] at hfollow
      have hnil := h.eq_nil_of_follow_root hts hfollow
      simp at hnil
    · induction us using List.reverseRecOn with
      | nil => exact absurd (some.inj hfollow').symm hroot
      | append_singleton us u _ =>
        obtain ⟨m, hm, hedge⟩ := follow_concat_eq_some_iff.mp hfollow
        obtain ⟨m', hm', hedge'⟩ := follow_concat_eq_some_iff.mp hfollow'
        obtain ⟨rfl, rfl⟩ := h.unique m t m' u n hroot hedge hedge'
        have hhead : ∀ {l : List τ}, (l ++ [t]).head? ≠ some a → l.head? ≠ some a := by
          intro l hl
          cases l with
          | nil => nofun
          | cons b l => exact hl
        rw [ih (hhead hts) (hhead hus) hm hm']

variable [DecidableEq τ]

theorem follow_dropWhile (h : LoopTree δ root a) (ts : List τ) :
    follow δ root (ts.dropWhile (· = a)) = follow δ root ts := by
  induction ts with
  | nil => rfl
  | cons t ts ih =>
    by_cases ht : t = a
    · rw [dropWhile_cons_of_pos (by simpa using ht), ih, ht, follow_cons, h.loop]
      rfl
    · rw [dropWhile_cons_of_neg (by simpa using ht)]

theorem head?_dropWhile_ne (ts : List τ) : (ts.dropWhile (· = a)).head? ≠ some a := by
  intro h
  have hnot := head?_dropWhile_not (fun t => decide (t = a)) ts
  rw [h] at hnot
  simp at hnot

theorem follow_eq_iff (h : LoopTree δ root a) (hts : follow δ root ts = some n) :
    follow δ root us = some n ↔ ts.dropWhile (· = a) = us.dropWhile (· = a) := by
  constructor
  · intro hus
    rw [← h.follow_dropWhile] at hts hus
    exact h.eq_of_follow (head?_dropWhile_ne ts) (head?_dropWhile_ne us) hts hus
  · intro heq
    rw [← h.follow_dropWhile, ← heq, h.follow_dropWhile, hts]

end LoopTree
end PathGraph
