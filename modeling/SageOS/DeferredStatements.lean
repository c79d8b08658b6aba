import Mathlib.Tactic

/-!
# Deferred statements of a block

A block collects its `defer` statements while it runs and runs them in reverse order when it is
left. A generator that yields inside the block leaves it and comes back later: the block is then
entered from its beginning, and statements are skipped until the one to resume at is found. What
the statements of a block do is a parameter, so the results hold for every program.
-/
namespace SageOS.Defer
open List
variable {δ : Type*}

/-- A statement of a block; `defer` holds the deferred statement. -/
inductive BlockStmt (δ : Type*)
  | defer (statement : δ)
  | other

/-- How a statement ends when it is run. A yield names the statement to resume at: the next one of
this block, or one inside the statement. The search does not find the latter if it is in a `match`
or in a branch that is not taken this time, and finding it does not end the search if it is a
`defer` again. -/
inductive Ending
  | normal
  | leaves
  | yieldsHere
  | yieldsInside (found : Bool)

/-- One time that control is in the block: how its statements end, and which deferred statements
the gas limit and the recursion limit admit. -/
structure Visit (δ : Type*) where
  ends : ℕ → Ending
  admits : δ → Bool

/-- The position of the statement to resume at, and whether running it ends the search. -/
abbrev Target := ℕ × Bool

def maxDeferred : ℕ := 64

/-- `interpret` on the statement at position `i`. -/
def interpretAt (v : Visit δ) (i : ℕ) : Option Target → Ending × Option Target
  | none => (v.ends i, none)
  | some (j, found) => if i = j ∧ found = true then (v.ends i, none) else (.normal, some (j, found))

/-- The loop of a block: where to resume, the collected statements and the target of the search. -/
def blockLoop (v : Visit δ) : List (BlockStmt δ) → ℕ → List δ → Option Target →
    Option Target × List δ × Option Target
  | [], _, deferred, target => (none, deferred, target)
  | .defer d :: rest, i, deferred, target =>
    blockLoop v rest (i + 1)
      (if deferred.length < maxDeferred then deferred ++ [d] else deferred) target
  | .other :: rest, i, deferred, target =>
    match interpretAt v i target with
    | (.normal, target) => blockLoop v rest (i + 1) deferred target
    | (.leaves, target) => (none, deferred, target)
    | (.yieldsHere, target) => (if rest.isEmpty then none else some (i + 1, true), deferred, target)
    | (.yieldsInside found, target) => (some (i, found), deferred, target)

/-- While the search goes on, the deferred statements are skipped as well. -/
def runDeferred (v : Visit δ) (deferred : List δ) : Option Target → List δ
  | none => deferred.reverse.filter v.admits
  | some _ => []

/-- The deferred statements that are executed at yields, and when the block is left. -/
def activation (items : List (BlockStmt δ)) : Option Target → List (Visit δ) → List δ × List δ
  | _, [] => ([], [])
  | target, v :: visits =>
    let r := blockLoop v items 0 [] target
    match r.1 with
    | none => ([], runDeferred v r.2.1 r.2.2)
    | some target =>
      let later := activation items (some target) visits
      (runDeferred v r.2.1 r.2.2 ++ later.1, later.2)

/-- The block as it is meant: it goes on where it yielded, and `reached` grows. -/
def passLoop (v : Visit δ) : List (BlockStmt δ) → ℕ → List δ →
    Option (List (BlockStmt δ) × Target) × List δ
  | [], _, reached => (none, reached)
  | .defer d :: rest, i, reached => passLoop v rest (i + 1) (reached ++ [d])
  | .other :: rest, i, reached =>
    match v.ends i with
    | .normal => passLoop v rest (i + 1) reached
    | .leaves => (none, reached)
    | .yieldsHere => (if rest.isEmpty then none else some (rest, i + 1, true), reached)
    | .yieldsInside found => (some (.other :: rest, i, found), reached)

/-- What is reached is run once, in reverse order, when the block is finally left. -/
def intended : List (BlockStmt δ) → ℕ → List δ → List (Visit δ) → List δ
  | _, _, _, [] => []
  | items, i, reached, v :: visits =>
    match passLoop v items i reached with
    | (none, reached) => reached.reverse
    | (some (rest, j, _), reached) => intended rest j reached visits

/-- The statement to resume at is one whose run ends the search. -/
def resumes : List (BlockStmt δ) → Bool → Bool
  | .other :: _, found => found
  | _, _ => false

/-- At the end at most 64 statements are deferred and all are admitted; none is admitted when the
block yields, and the block can be resumed unless nothing is due any more. -/
def Orderly : List (BlockStmt δ) → ℕ → List δ → List (Visit δ) → Prop
  | _, _, _, [] => True
  | items, i, reached, v :: visits =>
    match passLoop v items i reached with
    | (none, reached) => reached.length ≤ maxDeferred ∧ ∀ d ∈ reached, v.admits d = true
    | (some (rest, j, found), reached) => (∀ d ∈ reached.take maxDeferred, v.admits d = false) ∧
        if resumes rest found = true then Orderly rest j reached visits
        else intended rest j reached visits = []

def defers (l : List (BlockStmt δ)) : List δ :=
  l.filterMap fun
    | .defer d => some d
    | .other => none

theorem take_append_singleton (l : List δ) (d : δ) :
    (l ++ [d]).take maxDeferred = if (l.take maxDeferred).length < maxDeferred
      then l.take maxDeferred ++ [d] else l.take maxDeferred := by
  rw [length_take]
  split_ifs with h
  · rw [take_of_length_le (by simp; omega), take_of_length_le (by omega)]
  · exact take_append_of_le_length (by omega)

variable {v : Visit δ}

/-- Before the statement to resume at nothing is run, but the `defer` statements are collected. -/
theorem blockLoop_skip (pre suf : List (BlockStmt δ)) {i j : ℕ} (found : Bool) (reached : List δ)
    (hj : j = i + pre.length) :
    blockLoop v (pre ++ suf) i (reached.take maxDeferred) (some (j, found)) =
      blockLoop v suf j ((reached ++ defers pre).take maxDeferred) (some (j, found)) := by
  induction pre generalizing i reached with
  | nil => rw [hj]; simp [defers]
  | cons s pre ih =>
    rw [length_cons] at hj
    cases s with
    | defer d =>
      rw [cons_append, blockLoop, ← take_append_singleton, ih _ (by omega), append_assoc]
      rfl
    | other =>
      have hskip : interpretAt v i (some (j, found)) = (.normal, some (j, found)) :=
        if_neg fun h => by omega
      rw [cons_append, blockLoop, hskip]
      exact ih _ (by omega)

theorem blockLoop_search (pre suf : List (BlockStmt δ)) (found : Bool) :
    blockLoop v (pre ++ suf) 0 [] (some (pre.length, found)) =
      blockLoop v suf pre.length ((defers pre).take maxDeferred) (some (pre.length, found)) :=
  blockLoop_skip pre suf found [] (Nat.zero_add _).symm

theorem blockLoop_lost (suf : List (BlockStmt δ)) {i j : ℕ} {found : Bool} (deferred : List δ)
    (h : found = false ∨ j < i) : ∃ deferred',
      blockLoop v suf i deferred (some (j, found)) = (none, deferred', some (j, found)) := by
  induction suf generalizing i deferred with
  | nil => exact ⟨deferred, rfl⟩
  | cons s suf ih =>
    have hnext := h.imp_right fun h => Nat.lt_succ_of_lt h
    cases s with
    | defer d => exact ih _ hnext
    | other =>
      have hskip : interpretAt v i (some (j, found)) = (.normal, some (j, found)) := by
        refine if_neg fun ⟨hi, hf⟩ => ?_
        rcases h with h | h
        · rw [h] at hf
          cases hf
        · omega
      rw [blockLoop, hskip]
      exact ih _ hnext

theorem blockLoop_none (suf : List (BlockStmt δ)) (i : ℕ) (reached : List δ) :
    blockLoop v suf i (reached.take maxDeferred) none =
      ((passLoop v suf i reached).1.map (·.2), (passLoop v suf i reached).2.take maxDeferred,
        none) := by
  induction suf generalizing i reached with
  | nil => rfl
  | cons s suf ih =>
    cases s with
    | defer d => rw [blockLoop, ← take_append_singleton, ih, passLoop]
    | other =>
      rw [blockLoop, passLoop, interpretAt]
      cases v.ends i with
      | normal => exact ih _ _
      | leaves | yieldsInside => rfl
      | yieldsHere => cases suf <;> rfl

theorem passLoop_suspended {suf rest : List (BlockStmt δ)} {i j : ℕ} {found : Bool}
    {reached reached' : List δ} (h : passLoop v suf i reached = (some (rest, j, found), reached')) :
    ∃ mid, suf = mid ++ rest ∧ j = i + mid.length ∧ reached' = reached ++ defers mid := by
  induction suf generalizing i reached with
  | nil => cases h
  | cons s suf ih =>
    cases s with
    | defer d =>
      obtain ⟨mid, rfl, rfl, rfl⟩ := ih h
      exact ⟨.defer d :: mid, rfl, by simp; omega, by simp [defers]⟩
    | other =>
      rw [passLoop] at h
      cases hend : v.ends i with
      | normal =>
        rw [hend] at h
        obtain ⟨mid, rfl, rfl, rfl⟩ := ih h
        exact ⟨.other :: mid, rfl, by simp; omega, rfl⟩
      | leaves =>
        rw [hend] at h
        cases h
      | yieldsHere =>
        rw [hend] at h
        cases suf with
        | nil => cases h
        | cons t suf =>
          cases h
          exact ⟨[.other], rfl, rfl, by simp [defers]⟩
      | yieldsInside found =>
        rw [hend] at h
        cases h
        exact ⟨[], rfl, rfl, by simp [defers]⟩

theorem blockLoop_resume {pre suf : List (BlockStmt δ)} {found : Bool}
    (h : resumes suf found = true) :
    blockLoop v (pre ++ suf) 0 [] (some (pre.length, found)) =
      blockLoop v suf pre.length ((defers pre).take maxDeferred) none := by
  rw [blockLoop_search]
  match suf with
  | [] | .defer d :: _ => cases h
  | .other :: suf =>
    have hrun : interpretAt v pre.length (some (pre.length, found)) = (v.ends pre.length, none) :=
      if_pos ⟨rfl, h⟩
    rw [blockLoop, hrun, blockLoop, interpretAt]

theorem activation_lost {pre suf : List (BlockStmt δ)} {found : Bool}
    (h : resumes suf found = false) (visits : List (Visit δ)) :
    activation (pre ++ suf) (some (pre.length, found)) visits = ([], []) := by
  cases visits with
  | nil => rfl
  | cons v visits =>
    obtain ⟨deferred, hlost⟩ : ∃ deferred, blockLoop v (pre ++ suf) 0 []
        (some (pre.length, found)) = (none, deferred, some (pre.length, found)) := by
      rw [blockLoop_search]
      match suf with
      | [] => exact ⟨_, rfl⟩
      | .defer d :: suf => exact blockLoop_lost suf _ (.inr (Nat.lt_succ_self _))
      | .other :: suf => exact blockLoop_lost _ _ (.inl h)
    rw [activation, hlost]
    rfl

theorem filter_take_eq_iff (reached : List δ) : (reached.take maxDeferred).reverse.filter v.admits =
    reached.reverse ↔ reached.length ≤ maxDeferred ∧ ∀ d ∈ reached, v.admits d = true := by
  rw [filter_reverse, reverse_inj]
  constructor
  · intro h
    have hlen := congrArg List.length h
    have hle := length_filter_le v.admits (reached.take maxDeferred)
    rw [length_take] at hle
    refine ⟨by omega, fun d hd => ?_⟩
    rw [← h] at hd
    exact of_mem_filter hd
  · rintro ⟨hlen, hall⟩
    rw [take_of_length_le hlen]
    exact filter_eq_self.mpr hall

theorem activation_iff_orderly (pre suf : List (BlockStmt δ)) {target : Option Target}
    (henter : ∀ v, blockLoop v (pre ++ suf) 0 [] target =
      blockLoop v suf pre.length ((defers pre).take maxDeferred) none) (visits : List (Visit δ)) :
    activation (pre ++ suf) target visits = ([], intended suf pre.length (defers pre) visits) ↔
      Orderly suf pre.length (defers pre) visits := by
  induction visits generalizing pre suf target with
  | nil => exact iff_of_true rfl trivial
  | cons v visits ih =>
    rw [activation, intended, Orderly, henter, blockLoop_none]
    match hpass : passLoop v suf pre.length (defers pre) with
    | (none, reached) => exact (Prod.mk_right_inj ..).trans (filter_take_eq_iff reached)
    | (some (rest, j, found), reached) =>
      obtain ⟨mid, rfl, rfl, rfl⟩ := passLoop_suspended hpass
      have hitems : pre ++ (mid ++ rest) = pre ++ mid ++ rest := (append_assoc ..).symm
      have hdefers : defers pre ++ defers mid = defers (pre ++ mid) :=
        filterMap_append.symm
      rw [hitems, hdefers, ← length_append]
      have hrun : runDeferred v ((defers (pre ++ mid)).take maxDeferred) none = [] ↔
          ∀ d ∈ (defers (pre ++ mid)).take maxDeferred, v.admits d = false := by
        simp [runDeferred]
      have hlater : activation (pre ++ mid ++ rest) (some ((pre ++ mid).length, found)) visits =
          ([], intended rest (pre ++ mid).length (defers (pre ++ mid)) visits) ↔
          if resumes rest found = true then
            Orderly rest (pre ++ mid).length (defers (pre ++ mid)) visits
          else intended rest (pre ++ mid).length (defers (pre ++ mid)) visits = [] := by
        split_ifs with hres
        · exact ih _ _ fun _ => blockLoop_resume hres
        · rw [activation_lost (Bool.not_eq_true _ ▸ hres)]
          exact (Prod.mk_right_inj ..).trans eq_comm
      refine Iff.trans ?_ (and_congr hrun hlater)
      simp only [Option.map_some, Prod.ext_iff, append_eq_nil_iff, and_assoc]

/-- A block runs its deferred statements once, in reverse order, when it is finally left. -/
theorem deferred_once_iff_orderly (items : List (BlockStmt δ)) (visits : List (Visit δ)) :
    activation items none visits = ([], intended items 0 [] visits) ↔ Orderly items 0 [] visits :=
  activation_iff_orderly [] items (fun _ => rfl) visits

/-- The block defers, yields and has one more statement: what it defers runs at the yield, and is
collected again and runs a second time at the end. -/
theorem deferred_at_yield_and_end : activation [.defer 1, .other, .other] none
      [⟨fun i => if i = 1 then .yieldsHere else .normal, fun _ => true⟩,
        ⟨fun _ => .normal, fun _ => true⟩] = ([1], [1]) := by
  decide

end SageOS.Defer
