import Mathlib.Data.List.Basic

/-!
# Computations with checked accesses

`Checked σ α` is a stateful computation in which an access outside its bounds stops everything,
since nothing is known of what follows it. `Spec P m Q` says that from every state in `P` the
computation `m` ends without such an access in a result and a state in `Q`; `Keeps I m` is the
case of an invariant. The rules follow the shape of the computation.
-/

abbrev Checked (σ α : Type) := StateT σ Option α

namespace Checked
variable {σ α β : Type}

/-- The access at the heart of the model: it goes on only when `p` holds. -/
def require (p : σ → Prop) [DecidablePred p] : Checked σ Unit :=
  fun s => if p s then some ((), s) else none

theorem run_pure (a : α) (s : σ) : (pure a : Checked σ α) s = some (a, s) := rfl

theorem run_get_bind (f : σ → Checked σ β) (s : σ) : (MonadState.get >>= f) s = f s s := rfl

theorem run_modify_bind (g : σ → σ) (f : Unit → Checked σ β) (s : σ) :
    ((modify g : Checked σ Unit) >>= f) s = f () (g s) := rfl

theorem run_bind_of {m : Checked σ α} {s s' : σ} {a : α} (h : m s = some (a, s'))
    (f : α → Checked σ β) : (m >>= f) s = f a s' := by
  change (m s).bind (fun p => f p.1 p.2) = _
  rw [h]
  rfl

theorem exists_of_run_bind {m : Checked σ α} {f : α → Checked σ β} {s s' : σ} {b : β}
    (h : (m >>= f) s = some (b, s')) : ∃ a s₁, m s = some (a, s₁) ∧ f a s₁ = some (b, s') := by
  obtain ⟨⟨a, s₁⟩, hm, hf⟩ := Option.bind_eq_some_iff.mp h
  exact ⟨a, s₁, hm, hf⟩

theorem run_ite {c : Prop} [Decidable c] (m m' : Checked σ α) (s : σ) :
    (if c then m else m') s = if c then m s else m' s := by
  split_ifs <;> rfl

theorem run_require {p : σ → Prop} [DecidablePred p] {s : σ} (h : p s) :
    require p s = some ((), s) := by
  unfold require
  rw [if_pos h]

/-- From `P`, `m` makes no access out of bounds and ends in `Q`. -/
def Spec (P : σ → Prop) (m : Checked σ α) (Q : α → σ → Prop) : Prop :=
  ∀ s, P s → ∃ a s', m s = some (a, s') ∧ Q a s'

/-- `m` makes no access out of bounds in a state that satisfies `I`, and keeps `I`. -/
def Keeps (I : σ → Prop) (m : Checked σ α) : Prop := Spec I m fun _ => I

namespace Spec
variable {P P' : σ → Prop} {Q Q' : α → σ → Prop} {m : Checked σ α}

theorem mono (h : Spec P m Q) (hP : ∀ s, P' s → P s) (hQ : ∀ a s, Q a s → Q' a s) :
    Spec P' m Q' := by
  intro s hs
  obtain ⟨a, s', hm, hq⟩ := h s (hP s hs)
  exact ⟨a, s', hm, hQ a s' hq⟩

theorem pure {a : α} (h : ∀ s, P s → Q a s) : Spec P (Pure.pure a) Q :=
  fun s hs => ⟨a, s, rfl, h s hs⟩

theorem bind {R : β → σ → Prop} {f : α → Checked σ β} (hm : Spec P m Q)
    (hf : ∀ a, Spec (Q a) (f a) R) : Spec P (m >>= f) R := by
  intro s hs
  obtain ⟨a, s', hms, hq⟩ := hm s hs
  obtain ⟨b, s'', hfs, hr⟩ := hf a s' hq
  exact ⟨b, s'', (run_bind_of hms f).trans hfs, hr⟩

theorem get {R : β → σ → Prop} {f : σ → Checked σ β}
    (hf : ∀ s, P s → Spec (fun s' => s' = s) (f s) R) : Spec P (MonadState.get >>= f) R := by
  intro s hs
  obtain ⟨b, s', hfs, hr⟩ := hf s hs s rfl
  exact ⟨b, s', hfs, hr⟩

theorem modify {R : Unit → σ → Prop} {f : σ → σ} (h : ∀ s, P s → R () (f s)) :
    Spec P (modify f) R :=
  fun s hs => ⟨(), f s, rfl, h s hs⟩

theorem require {p : σ → Prop} [DecidablePred p] (h : ∀ s, P s → p s) :
    Spec P (Checked.require p) fun _ => P := by
  exact fun s hs => ⟨(), s, run_require (h s hs), hs⟩

theorem ite {c : Prop} [Decidable c] {m' : Checked σ α} (ht : c → Spec P m Q)
    (hf : ¬ c → Spec P m' Q) : Spec P (if c then m else m') Q := by
  split_ifs with h
  · exact ht h
  · exact hf h

end Spec

namespace Keeps
variable {I : σ → Prop} {m : Checked σ α}

theorem pure (a : α) : Keeps I (Pure.pure a) := Spec.pure fun _ hs => hs

theorem bind {f : α → Checked σ β} (hm : Keeps I m) (hf : ∀ a, Keeps I (f a)) :
    Keeps I (m >>= f) := Spec.bind hm hf

theorem get : Keeps I (MonadState.get : Checked σ σ) := fun s hs => ⟨s, s, rfl, hs⟩

theorem modify {f : σ → σ} (h : ∀ s, I s → I (f s)) : Keeps I (modify f) := Spec.modify h

theorem ite {c : Prop} [Decidable c] {m' : Checked σ α} (ht : Keeps I m) (hf : Keeps I m') :
    Keeps I (if c then m else m') := Spec.ite (fun _ => ht) (fun _ => hf)

theorem forM {f : α → Checked σ Unit} {l : List α} (hf : ∀ a ∈ l, Keeps I (f a)) :
    Keeps I (l.forM f) := by
  induction l with
  | nil => exact pure ()
  | cons a l ih =>
    refine (hf a List.mem_cons_self).bind fun _ => ih fun b hb => ?_
    exact hf b (List.mem_cons_of_mem a hb)

end Keeps

/-- Whenever `m` comes to an end, the part `g` of the state is as before. -/
def Fixes {γ : Type} (g : σ → γ) (m : Checked σ α) : Prop :=
  ∀ s a s', m s = some (a, s') → g s' = g s

namespace Fixes
variable {γ : Type} {g : σ → γ} {m m' : Checked σ α}

theorem pure (a : α) : Fixes g (Pure.pure a) := by
  intro s b s' h
  cases h
  rfl

theorem bind {f : α → Checked σ β} (hm : Fixes g m) (hf : ∀ a, Fixes g (f a)) :
    Fixes g (m >>= f) := by
  intro s b s' h
  obtain ⟨a, s₁, h₁, h₂⟩ := exists_of_run_bind h
  rw [hf a s₁ b s' h₂, hm s a s₁ h₁]

theorem get : Fixes g (MonadState.get : Checked σ σ) := by
  intro s a s' h
  cases h
  rfl

theorem modify {f : σ → σ} (h : ∀ s, g (f s) = g s) : Fixes g (modify f) := by
  intro s a s' he
  cases he
  exact h s

theorem require {p : σ → Prop} [DecidablePred p] : Fixes g (Checked.require p) := by
  intro s a s' h
  unfold Checked.require at h
  split_ifs at h
  cases h
  rfl

theorem ite {c : Prop} [Decidable c] (ht : Fixes g m) (hf : Fixes g m') :
    Fixes g (if c then m else m') := by
  split_ifs
  · exact ht
  · exact hf

end Fixes
end Checked
