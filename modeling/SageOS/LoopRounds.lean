import SageOS.LinkedChain

/-!
# Loops in lockstep

Two loops over the same nodes, each of which may be left early. If every round leads them from
related states to related states, or leaves both of them, then so do the whole loops. The relation
may depend on the nodes that are still to come.
-/
namespace LinkedChain
open List
variable {α σ τ β γ : Type} {f : σ → α → Except β σ} {g : τ → α → Except γ τ}
  {Q : β → γ → Prop}

/-- Both are left, with related results, or both go on, in related states. -/
def Together (Q : β → γ → Prop) (R : σ → τ → Prop) : Except β σ → Except γ τ → Prop
  | .error b, .error c => Q b c
  | .ok s, .ok t => R s t
  | _, _ => False

theorem together_iff {R : σ → τ → Prop} {x : Except β σ} {y : Except γ τ} :
    Together Q R x y ↔ (∃ b c, x = .error b ∧ y = .error c ∧ Q b c) ∨
      ∃ s t, x = .ok s ∧ y = .ok t ∧ R s t := by
  constructor
  · intro h
    cases x with
    | error b =>
      cases y with
      | error c => exact .inl ⟨b, c, rfl, rfl, h⟩
      | ok t => exact h.elim
    | ok s =>
      cases y with
      | error c => exact h.elim
      | ok t => exact .inr ⟨s, t, rfl, rfl, h⟩
  · rintro (⟨b, c, rfl, rfl, h⟩ | ⟨s, t, rfl, rfl, h⟩)
    · exact h
    · exact h

theorem Together.mono {Q' : β → γ → Prop} {R R' : σ → τ → Prop} {x : Except β σ} {y : Except γ τ}
    (h : Together Q R x y) (hQ : ∀ b c, Q b c → Q' b c) (hR : ∀ s t, R s t → R' s t) :
    Together Q' R' x y := by
  rcases together_iff.mp h with ⟨b, c, rfl, rfl, h⟩ | ⟨s, t, rfl, rfl, h⟩
  · exact hQ b c h
  · exact hR s t h

theorem foldlM_together (R : List α → σ → τ → Prop)
    (hround : ∀ a l s t, R (a :: l) s t → Together Q (R l) (f s a) (g t a)) {l l' : List α} {s : σ}
    {t : τ} (h : R (l ++ l') s t) : Together Q (R l') (l.foldlM f s) (l.foldlM g t) := by
  induction l generalizing s t with
  | nil => exact h
  | cons a l ih =>
    rw [foldlM_cons, foldlM_cons]
    rcases together_iff.mp (hround a (l ++ l') s t h) with
      ⟨b, c, hf, hg, hq⟩ | ⟨s', t', hf, hg, hr⟩
    · rw [hf, hg]
      exact hq
    · rw [hf, hg]
      exact ih hr

/-- The nodes of the first `n` rounds. -/
def visited (link : α → α) (stop : α → Prop) [DecidablePred stop] : ℕ → α → List α
  | 0, _ => []
  | n + 1, c => if stop c then [] else c :: visited link stop n (link c)

variable {link : α → α} {stop : α → Prop} [DecidablePred stop] {n : ℕ} {c : α}

theorem walk_eq_error_iff {s : σ} {b : β} : walk (fun _ => link) stop f n c s = some (.error b) ↔
      (visited link stop n c).foldlM f s = .error b := by
  induction n generalizing c s with
  | zero => exact iff_of_false (fun h => by cases h) (fun h => by cases h)
  | succ n ih =>
    unfold walk visited
    by_cases hstop : stop c
    · rw [if_pos hstop, if_pos hstop]
      exact iff_of_false (fun h => by cases h) (fun h => by cases h)
    · rw [if_neg hstop, if_neg hstop, foldlM_cons]
      cases f s c with
      | error b' => exact Option.some_inj.trans Iff.rfl
      | ok s' => exact ih

theorem walk_together (R : List α → σ → τ → Prop)
    (hround : ∀ a l s t, R (a :: l) s t → Together Q (R l) (f s a) (g t a)) {s : σ} {t : τ}
    (h : R (visited link stop n c) s t) :
    (walk (fun _ => link) stop f n c s = none ∧ walk (fun _ => link) stop g n c t = none) ∨
      ∃ x y, walk (fun _ => link) stop f n c s = some x ∧
        walk (fun _ => link) stop g n c t = some y ∧ Together Q (R []) x y := by
  induction n generalizing c s t with
  | zero => exact .inl ⟨rfl, rfl⟩
  | succ n ih =>
    unfold visited at h
    unfold walk
    by_cases hstop : stop c
    · rw [if_pos hstop] at h
      rw [if_pos hstop, if_pos hstop]
      exact .inr ⟨_, _, rfl, rfl, h⟩
    · rw [if_neg hstop] at h
      rw [if_neg hstop, if_neg hstop]
      rcases together_iff.mp (hround c _ s t h) with ⟨b, c, hf, hg, hq⟩ | ⟨s', t', hf, hg, hr⟩
      · rw [hf, hg]
        exact .inr ⟨_, _, rfl, rfl, hq⟩
      · rw [hf, hg]
        exact ih hr

end LinkedChain
