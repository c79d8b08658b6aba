import Mathlib.Data.Finset.Card
import Mathlib.Logic.Function.Iterate
import Mathlib.Tactic

/-!
# Computations that count

A counted computation returns a value together with the number of elementary operations that it
made, or it has not returned with the fuel that its loops were given. What it returns and what it
costs are separate questions: a loop costs at most its fuel times the cost of a round, it returns
when a measure decreases, and it never returns when an invariant keeps it going. `Reaches` says that
iterating a function arrives at a stopping point; over a finite set of nodes this happens within as
many steps as there are nodes.
-/

def Counted (α : Type) : Type := Option (α × ℕ)

namespace Counted
open Function Option
variable {α β γ σ : Type}

instance : Monad Counted where
  pure a := some (a, 0)
  bind x f := Option.bind x fun r => Option.map (fun t => (t.1, r.2 + t.2)) (f r.1)

def tick (n : ℕ) : Counted Unit := some ((), n)

def loop (step : σ → Counted (β ⊕ σ)) : ℕ → σ → Counted β
  | 0, _ => (none : Option (β × ℕ))
  | n + 1, s => step s >>= fun
    | .inl b => pure b
    | .inr s' => loop step n s'

def Yields (x : Counted α) (a : α) : Prop := ∃ k, x = some (a, k)

def Costs (x : Counted α) (b : ℕ) : Prop := ∀ a k, x = some (a, k) → k ≤ b

def Within (x : Counted α) (b : ℕ) : Prop := ∃ a k, x = some (a, k) ∧ k ≤ b

section Yields
variable {x : Counted α} {f : α → Counted β} {a : α} {b : β}

theorem Yields.unique {a' : α} (h : x.Yields a) (h' : x.Yields a') : a = a' := by
  obtain ⟨k, hk⟩ := h
  obtain ⟨k', hk'⟩ := h'
  exact congrArg Prod.fst (some.inj (hk.symm.trans hk'))

@[simp] theorem yields_pure {a b : α} : (pure a : Counted α).Yields b ↔ a = b := by
  constructor
  · intro ⟨k, hk⟩
    exact congrArg Prod.fst (some.inj hk)
  · intro h
    exact ⟨0, by rw [h]; rfl⟩

theorem Yields.pure (a : α) : (Pure.pure a : Counted α).Yields a :=
  yields_pure.mpr rfl

@[simp] theorem yields_tick {n : ℕ} {u : Unit} : (tick n).Yields u := ⟨n, rfl⟩

theorem yields_bind : (x >>= f).Yields b ↔ ∃ a, x.Yields a ∧ (f a).Yields b := by
  constructor
  · intro ⟨k, hk⟩
    obtain ⟨r, hr, hf⟩ := bind_eq_some_iff.mp hk
    obtain ⟨t, ht, heq⟩ := map_eq_some_iff.mp hf
    obtain ⟨rfl, -⟩ := Prod.mk.inj heq
    exact ⟨r.1, ⟨r.2, hr⟩, t.2, ht⟩
  · intro ⟨a, ⟨k, hk⟩, j, hj⟩
    refine ⟨k + j, bind_eq_some_iff.mpr ⟨(a, k), hk, ?_⟩⟩
    exact map_eq_some_iff.mpr ⟨(b, j), hj, rfl⟩

theorem Yields.exists_bind (hx : x.Yields a) (hf : ∃ b, (f a).Yields b) : ∃ b, (x >>= f).Yields b :=
  hf.imp fun _ hb => yields_bind.mpr ⟨a, hx, hb⟩

theorem Yields.exists_bind_and {P : β → Prop} (hx : x.Yields a)
    (hf : ∃ b, (f a).Yields b ∧ P b) : ∃ b, (x >>= f).Yields b ∧ P b :=
  hf.imp fun _ hb => ⟨yields_bind.mpr ⟨a, hx, hb.1⟩, hb.2⟩

@[simp] theorem yields_tick_bind {n : ℕ} {f : Unit → Counted β} :
    (tick n >>= f).Yields b ↔ (f ()).Yields b := by
  rw [yields_bind]
  exact ⟨fun ⟨_, _, h⟩ => h, fun h => ⟨(), yields_tick, h⟩⟩

@[simp] theorem yields_map {f : α → β} : (f <$> x).Yields b ↔ ∃ a, x.Yields a ∧ f a = b := by
  rw [show f <$> x = x >>= fun a => pure (f a) from rfl, yields_bind]
  simp

end Yields

section Costs
variable {x : Counted α} {f : α → Counted β} {b c : ℕ}

theorem Costs.mono (h : x.Costs b) (hle : b ≤ c) : x.Costs c :=
  fun a k hk => (h a k hk).trans hle

theorem costs_pure (a : α) : (pure a : Counted α).Costs b := by
  intro a' k hk
  cases hk
  exact Nat.zero_le b

theorem costs_tick (n : ℕ) : (tick n).Costs n := by
  intro a k hk
  cases hk
  exact le_rfl

theorem Costs.bind (hx : x.Costs b) (hf : ∀ a, (f a).Costs c) : (x >>= f).Costs (b + c) := by
  intro a k hk
  obtain ⟨r, hr, hfr⟩ := bind_eq_some_iff.mp hk
  obtain ⟨t, ht, heq⟩ := map_eq_some_iff.mp hfr
  obtain ⟨-, rfl⟩ := Prod.mk.inj heq
  exact Nat.add_le_add (hx r.1 r.2 hr) (hf r.1 t.1 t.2 ht)

theorem Costs.bind_zero (hx : x.Costs b) (hf : ∀ a, (f a).Costs 0) : (x >>= f).Costs b :=
  (hx.bind hf).mono (Nat.add_zero b).le

theorem Costs.map (hx : x.Costs b) (f : α → β) : (f <$> x).Costs b :=
  hx.bind_zero fun a => costs_pure (f a)

theorem Costs.ite {p : Prop} [Decidable p] {y : Counted α} (hx : x.Costs b) (hy : y.Costs b) :
    (if p then x else y).Costs b := by
  split_ifs
  exacts [hx, hy]

theorem costs_loop {step : σ → Counted (β ⊕ σ)} (hstep : ∀ s, (step s).Costs b) (n : ℕ)
    (s : σ) : (loop step n s).Costs (n * b) := by
  induction n generalizing s with
  | zero => exact nofun
  | succ n ih =>
    refine ((hstep s).bind fun r => ?_).mono (by rw [Nat.add_mul, Nat.one_mul, Nat.add_comm])
    cases r with
    | inl b' => exact costs_pure b'
    | inr s' => exact ih s'

theorem Yields.within {a : α} (h : x.Yields a) (hc : x.Costs b) :
    x.Within b := by
  obtain ⟨k, hk⟩ := h
  exact ⟨a, k, hk, hc a k hk⟩

/-- With some amount of fuel the computation returns after at most `b` operations. -/
def Returns (f : ℕ → Counted α) (b : ℕ) : Prop := ∃ n, (f n).Within b

theorem Within.yields (h : x.Within b) : ∃ a, x.Yields a := by
  obtain ⟨a, k, hk, -⟩ := h
  exact ⟨a, k, hk⟩

theorem Returns.yields {f : ℕ → Counted α} (h : Returns f b) : ∃ n a, (f n).Yields a := by
  obtain ⟨n, hn⟩ := h
  exact ⟨n, hn.yields⟩

end Costs

section Loop
variable {step step' : σ → Counted (β ⊕ σ)} {n m : ℕ} {s : σ} {b : β}

theorem yields_loop_succ : (loop step (n + 1) s).Yields b ↔
    (step s).Yields (.inl b) ∨ ∃ s', (step s).Yields (.inr s') ∧ (loop step n s').Yields b := by
  rw [loop, yields_bind]
  constructor
  · rintro ⟨b' | s', hr, h⟩
    · exact .inl (yields_pure.mp h ▸ hr)
    · exact .inr ⟨s', hr, h⟩
  · rintro (h | ⟨s', hr, h⟩)
    · exact ⟨.inl b, h, .pure _⟩
    · exact ⟨.inr s', hr, h⟩

theorem not_yields_loop_zero : ¬ (loop step 0 s).Yields b := nofun

theorem Yields.loop_mono (hstep : ∀ s r, (step s).Yields r → (step' s).Yields r)
    (h : (loop step n s).Yields b) (hnm : n ≤ m) : (loop step' m s).Yields b := by
  induction n generalizing m s with
  | zero => exact absurd h not_yields_loop_zero
  | succ n ih =>
    obtain ⟨m, rfl⟩ : ∃ k, m = k + 1 := ⟨m - 1, by omega⟩
    rw [yields_loop_succ] at h ⊢
    rcases h with h | ⟨s', hr, h⟩
    · exact .inl (hstep s _ h)
    · exact .inr ⟨s', hstep s _ hr, ih h (by omega)⟩

theorem exists_yields_loop {I : σ → Prop} {μ : σ → ℕ}
    (hstep : ∀ s, I s → (∃ b, (step s).Yields (.inl b)) ∨
      ∃ s', (step s).Yields (.inr s') ∧ I s' ∧ μ s' < μ s)
    (hs : I s) (hn : μ s < n) : ∃ b, (loop step n s).Yields b := by
  induction n generalizing s with
  | zero => exact absurd hn (Nat.not_lt_zero _)
  | succ n ih =>
    rcases hstep s hs with ⟨b, hb⟩ | ⟨s', hr, hs', hlt⟩
    · exact ⟨b, yields_loop_succ.mpr (.inl hb)⟩
    · obtain ⟨b, hb⟩ := ih hs' (by omega)
      exact ⟨b, yields_loop_succ.mpr (.inr ⟨s', hr, hb⟩)⟩

theorem Yields.exit (h : (loop step n s).Yields b) : ∃ s', (step s').Yields (.inl b) := by
  induction n generalizing s with
  | zero => exact absurd h not_yields_loop_zero
  | succ n ih =>
    rcases yields_loop_succ.mp h with h | ⟨s', -, h⟩
    · exact ⟨s, h⟩
    · exact ih h

theorem not_yields_loop {I : σ → Prop}
    (hstep : ∀ s, I s → ∀ r, (step s).Yields r → ∃ s', r = .inr s' ∧ I s') (hs : I s) :
    ¬ (loop step n s).Yields b := by
  induction n generalizing s with
  | zero => exact not_yields_loop_zero
  | succ n ih =>
    intro h
    rcases yields_loop_succ.mp h with h | ⟨s', hr, h⟩
    · obtain ⟨s', hs', -⟩ := hstep s hs _ h
      cases hs'
    · obtain ⟨s'', hs'', hI⟩ := hstep s hs _ hr
      cases hs''
      exact ih hI h

end Loop
end Counted

/-- Iterating `next` from `x` on arrives at a point at which to stop. -/
def Reaches {α : Type} (next : α → α) (stop : α → Prop) (x : α) : Prop := ∃ n, stop (next^[n] x)

namespace Reaches
variable {α : Type} {next : α → α} {stop : α → Prop} {x : α}

theorem of_stop (h : stop x) : Reaches next stop x := ⟨0, h⟩

theorem of_next (h : Reaches next stop (next x)) : Reaches next stop x := by
  obtain ⟨n, hn⟩ := h
  exact ⟨n + 1, hn⟩

theorem next_of_not_stop (h : Reaches next stop x) (hx : ¬ stop x) :
    Reaches next stop (next x) := by
  obtain ⟨n, hn⟩ := h
  cases n with
  | zero => exact absurd hn hx
  | succ n => exact ⟨n, hn⟩

/-- Points with the same key have the same successor and the same stops, and there are at most `N`
keys of points at which not to stop. -/
theorem within (key : α → ℕ) {N : ℕ} (hkey : ∀ a, ¬ stop a → key a < N)
    (hnext : ∀ a b, key a = key b → ¬ stop a → ¬ stop b → next a = next b)
    (h : Reaches next stop x) : ∃ n ≤ N, stop (next^[n] x) := by
  classical
  have hmin : ∀ i < Nat.find h, ¬ stop (next^[i] x) := fun i hi => Nat.find_min h hi
  refine ⟨Nat.find h, ?_, Nat.find_spec h⟩
  -- A key that comes twice would make the walk stop earlier.
  have hinj : Set.InjOn (fun i => key (next^[i] x)) (Finset.range (Nat.find h)) := by
    have hlt : ∀ i j, i < j → j < Nat.find h → key (next^[i] x) ≠ key (next^[j] x) := by
      intro i j hij hj heq
      have hsame : ∀ t, next^[t + 1] (next^[i] x) = next^[t + 1] (next^[j] x) := by
        intro t
        rw [Function.iterate_succ_apply, Function.iterate_succ_apply,
          hnext _ _ heq (hmin i (hij.trans hj)) (hmin j hj)]
      have hend := hsame (Nat.find h - j - 1)
      rw [← Function.iterate_add_apply, ← Function.iterate_add_apply,
        show Nat.find h - j - 1 + 1 + j = Nat.find h by omega] at hend
      refine hmin (Nat.find h - j - 1 + 1 + i) (by omega) ?_
      rw [hend]
      exact Nat.find_spec h
    intro i hi j hj heq
    have hi' := Finset.mem_range.mp hi
    have hj' := Finset.mem_range.mp hj
    rcases lt_trichotomy i j with hij | hij | hij
    · exact absurd heq (hlt i j hij hj')
    · exact hij
    · exact absurd heq.symm (hlt j i hij hi')
  have hcard := Finset.card_le_card_of_injOn (fun i => key (next^[i] x))
    (t := Finset.range N) (fun i hi => Finset.mem_coe.mpr
      (Finset.mem_range.mpr (hkey _ (hmin i (Finset.mem_range.mp hi))))) hinj
  rwa [Finset.card_range, Finset.card_range] at hcard

end Reaches
