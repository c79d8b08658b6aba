import SageOS.Checked

/-!
# What holds when a computation ends

`Ends P m Q` says that whenever `m` ends from a state in `P`, it ends in `Q`. A computation that
stops on the way is not restricted, so this is the reading for a compiler that may refuse its
input. The rules follow the shape of the computation.
-/
namespace Checked
variable {σ α β : Type}

def Ends (P : σ → Prop) (m : Checked σ α) (Q : α → σ → Prop) : Prop :=
  ∀ s, P s → ∀ a s', m s = some (a, s') → Q a s'

namespace Ends
variable {P P' : σ → Prop} {Q Q' : α → σ → Prop} {R : β → σ → Prop} {m : Checked σ α}

theorem mono (h : Ends P m Q) (hP : ∀ s, P' s → P s) (hQ : ∀ a s, Q a s → Q' a s) : Ends P' m Q' :=
  fun s hs a s' hm => hQ a s' (h s (hP s hs) a s' hm)

theorem pure {a : α} (h : ∀ s, P s → Q a s) : Ends P (Pure.pure a) Q := by
  intro s hs b s' hm
  cases hm
  exact h s hs

theorem bind {f : α → Checked σ β} (hm : Ends P m Q) (hf : ∀ a, Ends (Q a) (f a) R) :
    Ends P (m >>= f) R := by
  intro s hs b s' hb
  obtain ⟨a, s₁, hms, hfs⟩ := exists_of_run_bind hb
  exact hf a s₁ (hm s hs a s₁ hms) b s' hfs

theorem bind_congr {f g : α → Checked σ β} (hm : Ends P m Q) (hfg : ∀ a s, Q a s → f a s = g a s)
    {s : σ} (hs : P s) : (m >>= f) s = (m >>= g) s := by
  change (m s).bind _ = (m s).bind _
  apply Option.bind_congr
  rintro ⟨a, s'⟩ hms
  exact hfg a s' (hm s hs a s' hms)

theorem get {f : σ → Checked σ β} (hf : ∀ s, P s → Ends (fun s' => s' = s) (f s) R) :
    Ends P (MonadState.get >>= f) R :=
  fun s hs b s' hb => hf s hs s rfl b s' hb

theorem modify {f : σ → σ} {Q : Unit → σ → Prop} (h : ∀ s, P s → Q () (f s)) :
    Ends P (modify f : Checked σ Unit) Q := by
  intro s hs b s' hm
  cases hm
  exact h s hs

theorem stop : Ends P (fun _ => none) Q := fun _ _ _ _ hm => nomatch hm

theorem ite {c : Prop} [Decidable c] {m' : Checked σ α} (ht : c → Ends P m Q)
    (hf : ¬ c → Ends P m' Q) : Ends P (if c then m else m') Q := by
  by_cases hc : c
  · rw [if_pos hc]
    exact ht hc
  · rw [if_neg hc]
    exact hf hc

theorem forM {ι : Type} {f : ι → Checked σ PUnit} {l : List ι}
    (h : ∀ i ∈ l, Ends P (f i) fun _ => P) : Ends P (l.forM f) fun _ => P := by
  induction l with
  | nil => exact Ends.pure fun _ hs => hs
  | cons i l ih =>
    refine Ends.bind (h i List.mem_cons_self) fun _ => ih fun j hj => ?_
    exact h j (List.mem_cons_of_mem i hj)

end Ends
end Checked
