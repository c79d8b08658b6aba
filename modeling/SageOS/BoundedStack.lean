import Mathlib.Tactic

/-!
# Stacks of bounded height

A run of pushes and pops on a stack without bound, and on one that keeps at most `n` elements and
loses what is pushed beyond them. A pop of the empty stack does nothing, so the two can come
together again, but only there: they end with the same elements exactly when after every time at
which more than `n` elements were on the unbounded stack it became empty again.
-/
namespace SageOS.BoundedStack
open List
variable {α : Type*} {n : ℕ}

/-- `some a` is a push of `a` and `none` a pop; the top is the last element. -/
def step (s : List α) : Option α → List α
  | some a => s ++ [a]
  | none => s.dropLast

def boundedStep (n : ℕ) (s : List α) : Option α → List α
  | some a => if s.length < n then s ++ [a] else s
  | none => s.dropLast

def run (s : List α) (ops : List (Option α)) : List α := ops.foldl step s

def boundedRun (n : ℕ) (s : List α) (ops : List (Option α)) : List α := ops.foldl (boundedStep n) s

/-- Whenever the stack is higher than `n`, it is empty at some later time. -/
def Returns (n : ℕ) (s : List α) (ops : List (Option α)) : Prop :=
  ∀ done rest, ops = done ++ rest → n < (run s done).length →
    ∃ more last, rest = more ++ last ∧ run s (done ++ more) = []

theorem run_append (s : List α) (ops ops' : List (Option α)) :
    run s (ops ++ ops') = run (run s ops) ops' := foldl_append

theorem mem_run {s : List α} {ops : List (Option α)} {a : α} (h : a ∈ run s ops) :
    a ∈ s ∨ some a ∈ ops := by
  induction ops generalizing s with
  | nil => exact .inl h
  | cons op ops ih =>
    rcases ih h with hs | hops
    · cases op with
      | none => exact .inl (mem_of_mem_dropLast hs)
      | some b =>
        rcases mem_append.mp hs with hs | hb
        · exact .inl hs
        · rw [mem_singleton.mp hb]
          exact .inr mem_cons_self
    · exact .inr (mem_cons_of_mem op hops)

theorem boundedRun_map_some {s l : List α} (h : s.length + l.length ≤ n) :
    boundedRun n s (l.map some) = s ++ l := by
  induction l generalizing s with
  | nil => exact (append_nil s).symm
  | cons a l ih =>
    rw [length_cons] at h
    have hroom : boundedStep n s (some a) = s ++ [a] := if_pos (by omega)
    have hrest := ih (s := s ++ [a]) (by rw [length_append, length_singleton]; omega)
    rw [append_assoc, singleton_append] at hrest
    rw [← hrest, ← hroom]
    rfl

theorem length_boundedStep_le {s : List α} (hs : s.length ≤ n) (op : Option α) :
    (boundedStep n s op).length ≤ n := by
  cases op with
  | none =>
    change s.dropLast.length ≤ n
    rw [length_dropLast]
    omega
  | some a =>
    change (if s.length < n then s ++ [a] else s).length ≤ n
    split_ifs with h
    · rw [length_append, length_singleton]
      omega
    · exact hs

def Below (b u : List α) : Prop := b = u ∨ b.length < u.length

variable {b u : List α}

theorem Below.step (h : Below b u) (op : Option α) : Below (boundedStep n b op) (step u op) := by
  cases op with
  | none =>
    change Below b.dropLast u.dropLast
    rcases h with rfl | hlt
    · exact .inl rfl
    · by_cases hb : b.length = 0
      · by_cases hu : u.length = 1
        · left
          rw [eq_nil_of_length_eq_zero hb, dropLast_nil, eq_comm,
            ← length_eq_zero_iff, length_dropLast, hu]
        · right
          rw [length_dropLast, length_dropLast]
          omega
      · right
        rw [length_dropLast, length_dropLast]
        omega
  | some a =>
    change Below (if b.length < n then b ++ [a] else b) (u ++ [a])
    split_ifs with hroom
    · rcases h with rfl | hlt
      · exact .inl rfl
      · right
        simpa using hlt
    · right
      rw [length_append, length_singleton]
      rcases h with rfl | hlt <;> omega

theorem Below.run (h : Below b u) (ops : List (Option α)) :
    Below (boundedRun n b ops) (run u ops) := by
  induction ops generalizing b u with
  | nil => exact h
  | cons op ops ih => exact ih (h.step op)

theorem Below.eq_of_nil {b : List α} (h : Below b []) : b = [] :=
  h.resolve_right (Nat.not_lt_zero _)

theorem lower_of_run_ne_nil (h : b.length < u.length) {ops : List (Option α)}
    (hne : ∀ more last, ops = more ++ last → run u more ≠ []) :
    (boundedRun n b ops).length < (run u ops).length := by
  induction ops generalizing b u with
  | nil => exact h
  | cons op ops ih =>
    have hnext : (boundedStep n b op).length < (step u op).length := by
      have hbelow : Below (boundedStep n b op) (step u op) := Below.step (.inr h) op
      rcases hbelow with heq | hlt
      · exfalso
        have hu : step u op ≠ [] := hne [op] ops rfl
        cases op with
        | none =>
          have hlen : b.dropLast.length = u.dropLast.length := congrArg List.length heq
          have hpos : 0 < u.dropLast.length := length_pos_iff.mpr hu
          rw [length_dropLast] at hpos
          rw [length_dropLast, length_dropLast] at hlen
          omega
        | some a =>
          have hlen := congrArg List.length heq
          change (if b.length < n then b ++ [a] else b).length = (u ++ [a]).length at hlen
          split_ifs at hlen <;> simp at hlen <;> omega
      · exact hlt
    apply ih hnext
    intro more last heq
    exact hne (op :: more) last (by rw [heq, cons_append])

/-- The two stacks meet at the end when each lead is made up for by an empty stack. -/
theorem boundedRun_eq_run (hb : b.length ≤ n) (hbelow : Below b u) {ops : List (Option α)}
    (hlead : b ≠ u → ∃ more last, ops = more ++ last ∧ run u more = [])
    (hreturns : Returns n u ops) : boundedRun n b ops = run u ops := by
  induction ops generalizing b u with
  | nil =>
    by_contra hne
    obtain ⟨more, last, heq, hnil⟩ := hlead hne
    obtain ⟨rfl, -⟩ := append_eq_nil_iff.mp heq.symm
    have hu : u = [] := hnil
    subst hu
    exact hne hbelow.eq_of_nil
  | cons op ops ih =>
    apply ih (length_boundedStep_le hb op) (hbelow.step op)
    · intro hne
      by_cases heq : b = u
      · -- the push was lost, so the unbounded stack is too high now
        subst heq
        have hhigh : n < (step b op).length := by
          by_contra hle
          apply hne
          cases op with
          | none => rfl
          | some a =>
            rw [show step b (some a) = b ++ [a] from rfl, length_append, length_singleton] at hle
            exact if_pos (by omega)
        obtain ⟨more, last, hrest, hnil⟩ := hreturns [op] ops rfl hhigh
        exact ⟨more, last, hrest, hnil⟩
      · obtain ⟨more, last, hops, hnil⟩ := hlead heq
        cases more with
        | nil =>
          have hu : u = [] := hnil
          subst hu
          exact absurd hbelow.eq_of_nil heq
        | cons op' more =>
          obtain ⟨rfl, rfl⟩ := List.cons.inj hops
          exact ⟨more, last, rfl, hnil⟩
    · intro done rest hops hhigh
      obtain ⟨more, last, hrest, hnil⟩ := hreturns (op :: done) rest (by rw [hops]; rfl) hhigh
      exact ⟨more, last, hrest, hnil⟩

theorem length_boundedRun_le {b : List α} (hb : b.length ≤ n) (ops : List (Option α)) :
    (boundedRun n b ops).length ≤ n := by
  induction ops generalizing b with
  | nil => exact hb
  | cons op ops ih => exact ih (length_boundedStep_le hb op)

/-- From the empty stack: a run on the bounded stack ends as on the unbounded one exactly when
the latter always returns to the bottom after it was higher than `n`. -/
theorem boundedRun_eq_run_iff (ops : List (Option α)) :
    boundedRun n [] ops = run [] ops ↔ Returns n [] ops := by
  constructor
  · intro heq done rest hops hhigh
    by_contra hnever
    have hlower : (boundedRun n [] done).length < (run [] done).length :=
      lt_of_le_of_lt (length_boundedRun_le (Nat.zero_le n) done) hhigh
    have hend : (boundedRun n (boundedRun n [] done) rest).length <
        (run (run [] done) rest).length :=
      lower_of_run_ne_nil hlower fun more last hrest hnil =>
        hnever ⟨more, last, hrest, (run_append [] done more).trans hnil⟩
    rw [← run_append, ← hops] at hend
    have hsplit : boundedRun n (boundedRun n [] done) rest = boundedRun n [] ops := by
      rw [hops]
      exact foldl_append.symm
    rw [hsplit, heq] at hend
    exact lt_irrefl _ hend
  · exact boundedRun_eq_run (Nat.zero_le n) (.inl rfl) fun hne => absurd rfl hne

theorem length_boundedRun_lt {ops : List (Option α)} (h : ¬ Returns n [] ops) :
    (boundedRun n [] ops).length < (run [] ops).length := by
  have hbelow : Below (boundedRun n [] ops) (run [] ops) := Below.run (.inl rfl) ops
  exact hbelow.resolve_left fun heq => h ((boundedRun_eq_run_iff ops).mp heq)

end SageOS.BoundedStack
