import Mathlib.Data.List.Nodup
import Mathlib.Tactic

/-!
# Chains of links

`Chain next stop c l` says that following `next` from `c` visits the nodes of `l` in order and
then a node at which to stop. A chain is determined by its first node, has no node twice, and does
not depend on the links of other nodes; it grows at its end. `walk` is the loop that follows links
and may leave early, and on a chain it is a fold over its nodes. `Linked next head l` is the case
of links that may be null: the list that starts at `head` consists of the nodes of `l`.
-/
namespace LinkedChain
open List
variable {α σ β : Type}

def Chain (next : α → α) (stop : α → Prop) : α → List α → Prop
  | c, [] => stop c
  | c, a :: l => a = c ∧ ¬ stop c ∧ Chain next stop (next c) l

namespace Chain

instance decide [DecidableEq α] (next : α → α) (stop : α → Prop) [DecidablePred stop] :
    ∀ c l, Decidable (Chain next stop c l)
  | c, [] => inferInstanceAs (Decidable (stop c))
  | c, a :: l =>
    haveI := decide next stop (next c) l
    inferInstanceAs (Decidable (a = c ∧ ¬ stop c ∧ Chain next stop (next c) l))

variable {next next' : α → α} {stop : α → Prop} {c : α} {l l' : List α}

theorem unique (h : Chain next stop c l) (h' : Chain next stop c l') : l = l' := by
  induction l generalizing c l' with
  | nil =>
    cases l' with
    | nil => rfl
    | cons a l' => exact absurd h h'.2.1
  | cons a l ih =>
    cases l' with
    | nil => exact absurd h' h.2.1
    | cons a' l' =>
      obtain ⟨rfl, -, hl⟩ := h
      obtain ⟨rfl, -, hl'⟩ := h'
      rw [ih hl hl']

theorem congr (h : Chain next stop c l) (hnext : ∀ a ∈ l, next' a = next a) :
    Chain next' stop c l := by
  induction l generalizing c with
  | nil => exact h
  | cons a l ih =>
    obtain ⟨rfl, hstop, hl⟩ := h
    refine ⟨rfl, hstop, ?_⟩
    rw [hnext a mem_cons_self]
    exact ih hl fun b hb => hnext b (mem_cons_of_mem a hb)

theorem of_append {a : α} (h : Chain next stop c (l ++ a :: l')) : Chain next stop a (a :: l') := by
  induction l generalizing c with
  | nil =>
    obtain rfl := h.1
    exact h
  | cons b l ih => exact ih h.2.2

theorem exists_suffix (h : Chain next stop c l) {a : α} (ha : a ∈ l) :
    ∃ l₁ l₂, l = l₁ ++ a :: l₂ ∧ Chain next stop a (a :: l₂) := by
  obtain ⟨l₁, l₂, rfl⟩ := append_of_mem ha
  exact ⟨l₁, l₂, rfl, h.of_append⟩

theorem nodup (h : Chain next stop c l) : l.Nodup := by
  induction l generalizing c with
  | nil => exact nodup_nil
  | cons a l ih =>
    have hall := h
    obtain ⟨rfl, -, hl⟩ := h
    refine nodup_cons.mpr ⟨fun hmem => ?_, ih hl⟩
    obtain ⟨l₁, l₂, hsplit, hrest⟩ := hl.exists_suffix hmem
    have hlen := congrArg List.length (hall.unique hrest)
    rw [hsplit, length_cons, length_cons, length_append, length_cons] at hlen
    omega

theorem next_mem_or_stop (h : Chain next stop c l) {a : α} (ha : a ∈ l) :
    next a ∈ l ∨ stop (next a) := by
  obtain ⟨l₁, l₂, rfl, -, -, hrest⟩ := h.exists_suffix ha
  cases l₂ with
  | nil => exact .inr hrest
  | cons b l₂ =>
    obtain ⟨rfl, -⟩ := hrest
    exact .inl (by simp)

theorem extend {d : α} (h : Chain next stop c (l ++ [d])) {e : α} (he : ¬ stop e)
    (hl : ∀ a ∈ l, next' a = next a) (hd : next' d = e) (hend : stop (next' e)) :
    Chain next' stop c (l ++ [d, e]) := by
  induction l generalizing c with
  | nil =>
    obtain ⟨rfl, hstop, -⟩ := h
    refine ⟨rfl, hstop, hd.symm, ?_, ?_⟩ <;> rw [hd]
    exacts [he, hend]
  | cons a l ih =>
    obtain ⟨rfl, hstop, hrest⟩ := h
    refine ⟨rfl, hstop, ?_⟩
    rw [hl a (by simp)]
    exact ih hrest fun b hb => hl b (by simp [hb])

end Chain

def Linked (next : α → Option α) (head : Option α) (l : List α) : Prop :=
  Chain (fun c => c.bind next) (· = none) head (l.map some)

@[simp] theorem linked_nil {next : α → Option α} {head : Option α} :
    Linked next head [] ↔ head = none := Iff.rfl

@[simp] theorem linked_cons {next : α → Option α} {head : Option α} {a : α} {l : List α} :
    Linked next head (a :: l) ↔ head = some a ∧ Linked next (next a) l := by
  constructor
  · rintro ⟨rfl, -, hl⟩
    exact ⟨rfl, hl⟩
  · rintro ⟨rfl, hl⟩
    exact ⟨rfl, nofun, hl⟩

namespace Linked
variable {next next' : α → Option α} {head : Option α} {l l' : List α}

theorem unique (h : Linked next head l) (h' : Linked next head l') : l = l' :=
  map_injective_iff.mpr (Option.some_injective α) (Chain.unique h h')

theorem nodup (h : Linked next head l) : l.Nodup := List.Nodup.of_map some (Chain.nodup h)

theorem congr (h : Linked next head l) (hnext : ∀ a ∈ l, next' a = next a) :
    Linked next' head l := by
  refine Chain.congr h fun c hc => ?_
  obtain ⟨a, ha, rfl⟩ := mem_map.mp hc
  exact hnext a ha

theorem extend {d e : α} (h : Linked next head (l ++ [d])) (hl : ∀ a ∈ l, next' a = next a)
    (hd : next' d = some e) (hend : next' e = none) : Linked next' head (l ++ [d, e]) := by
  unfold Linked at h ⊢
  rw [map_append] at h ⊢
  refine Chain.extend h nofun (fun c hc => ?_) hd hend
  obtain ⟨a, ha, rfl⟩ := mem_map.mp hc
  exact hl a ha

theorem not_self {a : α} (ha : next a = some a) : ¬ Linked next (some a) l := by
  intro h
  cases l with
  | nil => cases h
  | cons b l =>
    obtain ⟨hb, hl⟩ := linked_cons.mp h
    obtain rfl := Option.some.inj hb
    rw [ha] at hl
    have hlen := congrArg List.length (h.unique hl)
    rw [length_cons] at hlen
    omega

end Linked

/-- The loop that follows links until it stops or its body leaves it. -/
def walk (next : σ → α → α) (stop : α → Prop) [DecidablePred stop] (body : σ → α → Except β σ) :
    ℕ → α → σ → Option (Except β σ)
  | 0, _, _ => none
  | n + 1, c, s =>
    if stop c then some (.ok s)
    else match body s c with
      | .error b => some (.error b)
      | .ok s' => walk next stop body n (next s' c) s'

variable {next : σ → α → α} {stop : α → Prop} [DecidablePred stop] {body : σ → α → Except β σ}
  {n : ℕ} {c : α} {s : σ}

/-- On a chain that the body does not touch the loop is a fold. -/
theorem walk_chain {link : α → α} {I : σ → Prop} {l : List α}
    (h : Chain link stop c l) (hn : l.length < n) (hs : I s)
    (hnext : ∀ s, I s → ∀ a ∈ l, next s a = link a)
    (hbody : ∀ s, I s → ∀ a ∈ l, ∀ s', body s a = .ok s' → I s') :
    walk next stop body n c s = some (l.foldlM body s) := by
  induction l generalizing c s n with
  | nil =>
    obtain ⟨n, rfl⟩ : ∃ k, n = k + 1 := ⟨n - 1, by omega⟩
    exact if_pos h
  | cons a l ih =>
    obtain ⟨n, rfl⟩ : ∃ k, n = k + 1 := ⟨n - 1, by omega⟩
    obtain ⟨rfl, hstop, hl⟩ := h
    rw [walk, if_neg hstop, foldlM_cons]
    cases hb : body s a with
    | error b => rfl
    | ok s' =>
      have hs' := hbody s hs a mem_cons_self s' hb
      dsimp only
      rw [hnext s' hs' a mem_cons_self]
      exact ih hl (by simpa using hn) hs' (fun s hs b hmem => hnext s hs b (mem_cons_of_mem a hmem))
        fun s hs b hmem => hbody s hs b (mem_cons_of_mem a hmem)

theorem walk_mono {m : ℕ} {r : Except β σ} (h : walk next stop body n c s = some r) (hnm : n ≤ m) :
    walk next stop body m c s = some r := by
  induction n generalizing m c s with
  | zero => cases h
  | succ n ih =>
    obtain ⟨m, rfl⟩ : ∃ k, m = k + 1 := ⟨m - 1, by omega⟩
    rw [walk] at h ⊢
    by_cases hstop : stop c
    · rwa [if_pos hstop] at h ⊢
    · rw [if_neg hstop] at h ⊢
      cases hb : body s c with
      | error b => rwa [hb] at h
      | ok s' =>
        rw [hb] at h
        exact ih h (by omega)

theorem exists_body_of_walk {b : β} (h : walk next stop body n c s = some (.error b)) :
    ∃ s' c', body s' c' = .error b := by
  induction n generalizing c s with
  | zero => cases h
  | succ n ih =>
    rw [walk] at h
    by_cases hstop : stop c
    · rw [if_pos hstop] at h
      cases h
    · rw [if_neg hstop] at h
      cases hb : body s c with
      | error b' =>
        rw [hb] at h
        cases h
        exact ⟨s, c, hb⟩
      | ok s' =>
        rw [hb] at h
        exact ih h

/-- The loop ends where the links lead to a node that stops it or at which its body leaves it. -/
theorem exists_walk {halt : α → Prop} (link : α → α) (hnext : ∀ s a, next s a = link a)
    (hbody : ∀ s a, halt a → ∃ b, body s a = .error b)
    (h : stop (link^[n] c) ∨ halt (link^[n] c)) (s : σ) :
    ∃ r, walk next stop body (n + 1) c s = some r := by
  induction n generalizing c s with
  | zero =>
    rw [walk]
    by_cases hstop : stop c
    · exact ⟨_, if_pos hstop⟩
    · obtain ⟨b, hb⟩ := hbody s c (h.resolve_left hstop)
      rw [if_neg hstop, hb]
      exact ⟨_, rfl⟩
  | succ n ih =>
    rw [walk]
    by_cases hstop : stop c
    · exact ⟨_, if_pos hstop⟩
    · rw [if_neg hstop]
      cases body s c with
      | error b => exact ⟨_, rfl⟩
      | ok s' =>
        dsimp only
        rw [hnext]
        exact ih h s'

/-- The loop ends when every round of it decreases a measure. -/
theorem exists_walk_of_measure {I : σ → Prop} (μ : σ → ℕ)
    (hbody : ∀ s c s', I s → body s c = .ok s' → I s' ∧ μ s' < μ s) (hs : I s)
    (hn : μ s < n) (c : α) : ∃ r, walk next stop body n c s = some r := by
  induction n generalizing c s with
  | zero => exact absurd hn (Nat.not_lt_zero _)
  | succ n ih =>
    rw [walk]
    by_cases hstop : stop c
    · exact ⟨_, if_pos hstop⟩
    · rw [if_neg hstop]
      cases hb : body s c with
      | error b => exact ⟨_, rfl⟩
      | ok s' =>
        obtain ⟨hs', hlt⟩ := hbody s c s' hs hb
        exact ih hs' (by omega) _

/-- A loop whose body never leaves it runs on along links that never stop. -/
theorem walk_eq_none (link : α → α) (hnext : ∀ s a, next s a = link a)
    (h : ∀ k, ¬ stop (link^[k] c) ∧ ∀ s, ∃ s', body s (link^[k] c) = .ok s') (s : σ) :
    walk next stop body n c s = none := by
  induction n generalizing c s with
  | zero => rfl
  | succ n ih =>
    obtain ⟨hstop, hok⟩ : ¬ stop c ∧ ∀ s, ∃ s', body s c = .ok s' := h 0
    obtain ⟨s', hs'⟩ := hok s
    rw [walk, if_neg hstop, hs']
    dsimp only
    rw [hnext]
    exact ih (fun k => h (k + 1)) s'

/-- The state in which a loop ends that hands out its state when it leaves early. -/
def final : Except σ σ → σ
  | .error s => s
  | .ok s => s

theorem final_foldlM {f : σ → α → σ} {done : σ → Prop} [DecidablePred done]
    (hdone : ∀ s a, done s → f s a = s) (l : List α) (s : σ) :
    final (l.foldlM (fun s a => if done s then .error s else .ok (f s a)) s) = l.foldl f s := by
  induction l generalizing s with
  | nil => rfl
  | cons a l ih =>
    rw [foldlM_cons, foldl_cons]
    by_cases h : done s
    · have hfix : ∀ l : List α, l.foldl f s = s := by
        intro l
        induction l with
        | nil => rfl
        | cons b l ih => rw [foldl_cons, hdone s b h, ih]
      rw [if_pos h, hdone s a h, hfix]
      rfl
    · rw [if_neg h]
      exact ih (f s a)

end LinkedChain
