import Mathlib.Tactic

/-!
# Handles of spawned threads

`thread.join` and `await` work on the same fields of a thread value. The join that waits for the
thread releases its data, and every operation after it follows a null pointer; an `await` keeps the
data. The result in the data is no root of the collector: a collection after the end of the thread
releases a result that nothing else holds. So all operations on a handle return the result of the
thread, which is joined once, exactly when no operation comes after a first `thread.join` and none
after such a collection.
-/
namespace SageOS.ThreadHandle
open Option

/-- Null pointers are `false` and `none`; of the thread's data only the result is read. The result
is `none` once its object has been released. -/
structure ThreadValue (V : Type) where
  handle : Bool
  data : Option (Option V)
  joined : Bool

/-- The thread value, what the thread still has to return, and the number of joins of the thread. -/
structure Spawned (V : Type) where
  value : ThreadValue V
  running : Option V
  joins : ℕ

variable {V : Type}

/-- A thread whose function is going to return `r`. -/
def threadSpawn (nil r : V) : Spawned V := ⟨⟨true, some (some nil), false⟩, some r, 0⟩

namespace Spawned
variable (s : Spawned V)

/-- The end of `sage_thread_entry`. -/
def finish : Spawned V :=
  match s.running with
  | none => s
  | some r =>
    { s with value := { s.value with data := s.value.data.map fun _ => some r }, running := none }

/-- The wait ends when the thread has finished. -/
def sageThreadJoin : Spawned V := { s.finish with joins := s.joins + 1 }

def threadJoin : Option (Option V × Spawned V) :=
  if s.value.joined then s.value.data.map (·, s)
  else if s.value.handle then
    s.sageThreadJoin.value.data.map (·, { s.sageThreadJoin with value := ⟨false, none, true⟩ })
  else none

def await : Option (Option V × Spawned V) :=
  if s.value.joined then s.value.data.map (·, s)
  else if s.value.handle then
    let t := s.sageThreadJoin
    t.value.data.map (·, { t with value := { t.value with joined := true } })
  else none

/-- A collection while the handle is in use. A thread value has no children for the collector, so
`marked` is whether another root leads to the result; before the end of the thread it is nil. -/
def gcCollect (isObject : V → Bool) (marked : Bool) : Spawned V :=
  if s.running.isSome || marked then s
  else { s with value := { s.value with data := s.value.data.map (·.filter (!isObject ·)) } }

end Spawned

inductive HandleCall
  | join
  | await

def HandleCall.exec (s : Spawned V) : HandleCall → Option (Option V × Spawned V)
  | .join => s.threadJoin
  | .await => s.await

inductive HandleEvent
  | call (c : HandleCall)
  | finish
  | collect (marked : Bool)

variable (isObject : V → Bool)

/-- The values that the calls return. -/
def run : List HandleEvent → Spawned V → Option (List (Option V) × Spawned V)
  | [], s => some ([], s)
  | .finish :: events, s => run events s.finish
  | .collect marked :: events, s => run events (s.gcCollect isObject marked)
  | .call c :: events, s =>
    (c.exec s).bind fun out => (run events out.2).map fun outs => (out.1 :: outs.1, outs.2)

def calls (events : List HandleEvent) : List HandleCall :=
  events.filterMap fun
    | .call c => some c
    | _ => none

/-- All `n` calls have returned `r`, and the thread has been joined `j` times. -/
def Served (r : V) (n j : ℕ) (out : Option (List (Option V) × Spawned V)) : Prop :=
  ∃ s, out = some (List.replicate n (some r), s) ∧ s.joins = j

/-- No call comes after a first `thread.join`. -/
def JoinsLast (events : List HandleEvent) : Prop :=
  ∀ rest, calls events = .join :: rest → rest = []

/-- No call comes after a collection that finds the result of the ended thread unmarked, if the
result is an object. A call waits for the end of the thread. -/
def KeepsResult (object : Bool) : Bool → List HandleEvent → Prop
  | _, [] => True
  | _, .call _ :: events => KeepsResult object true events
  | _, .finish :: events => KeepsResult object true events
  | ended, .collect marked :: events =>
    (ended = true ∧ object = true ∧ marked = false → calls events = []) ∧
      KeepsResult object ended events

variable {isObject} {r : V} {events : List HandleEvent}

theorem keepsResult_of_no_calls (h : calls events = []) (object ended : Bool) :
    KeepsResult object ended events := by
  induction events generalizing ended with
  | nil => trivial
  | cons e events ih =>
    cases e with
    | call c => cases h
    | finish => exact ih h true
    | collect marked => exact ⟨fun _ => h, ih h ended⟩

theorem run_of_no_calls (h : calls events = []) (s : Spawned V) :
    ∃ t, run isObject events s = some ([], t) ∧ t.joins = s.joins := by
  induction events generalizing s with
  | nil => exact ⟨s, rfl, rfl⟩
  | cons e events ih =>
    cases e with
    | call c => cases h
    | finish =>
      obtain ⟨t, ht, hjoins⟩ := ih h s.finish
      refine ⟨t, ht, hjoins.trans ?_⟩
      unfold Spawned.finish
      split <;> rfl
    | collect marked =>
      obtain ⟨t, ht, hjoins⟩ := ih h (s.gcCollect isObject marked)
      refine ⟨t, ht, hjoins.trans ?_⟩
      unfold Spawned.gcCollect
      split <;> rfl

theorem served_cons_iff {n j : ℕ} {x : Option V} {out : Option (List (Option V) × Spawned V)} :
    Served r (n + 1) j (out.map fun outs => (x :: outs.1, outs.2)) ↔
      x = some r ∧ Served r n j out := by
  rcases out with _ | ⟨xs, t⟩
  · simp [Served]
  · simp [Served, List.replicate_succ, and_assoc]

/-- The thread has ended and its result is `x`. -/
def ended (x : Option V) (joined : Bool) (joins : ℕ) : Spawned V :=
  ⟨⟨true, some x, joined⟩, none, joins⟩

def released : Spawned V := ⟨⟨false, none, true⟩, none, 1⟩

theorem gcCollect_ended (joined marked : Bool) (j : ℕ) :
    (ended (some r) joined j).gcCollect isObject marked =
      ended (if isObject r = true ∧ marked = false then none else some r) joined j := by
  cases marked <;> cases hr : isObject r <;> simp [Spawned.gcCollect, ended, Option.filter, hr]

theorem run_released : run isObject events (released : Spawned V) =
    if calls events = [] then some ([], released) else none := by
  induction events with
  | nil => rfl
  | cons e events ih =>
    cases e with
    | call c => cases c <;> rfl
    | finish => exact ih
    | collect marked => cases marked <;> exact ih

/-- Once the object of the result is gone, no call returns the result. -/
theorem served_gone_iff (joined : Bool) {j k : ℕ} (hj : calls events = [] → j = k) :
    Served r (calls events).length j (run isObject events (ended none joined k)) ↔
      calls events = [] := by
  constructor
  · clear hj
    induction events with
    | nil => exact fun _ => rfl
    | cons e events ih =>
      cases e with
      | call c =>
        intro h
        cases c <;> cases joined <;> exact nomatch (served_cons_iff.mp h).1
      | finish => exact ih
      | collect marked => cases marked <;> exact ih
  · intro h
    rw [h, hj h]
    exact run_of_no_calls h _

theorem served_awaited_iff :
    Served r (calls events).length 1 (run isObject events (ended (some r) true 1)) ↔
      KeepsResult (isObject r) true events := by
  induction events with
  | nil => exact iff_of_true ⟨_, rfl, rfl⟩ trivial
  | cons e events ih =>
    cases e with
    | call c =>
      have hexec : c.exec (ended (some r) true 1) = some (some r, ended (some r) true 1) := by
        cases c <;> rfl
      rw [run, hexec, bind_some]
      exact served_cons_iff.trans ((and_iff_right rfl).trans ih)
    | finish => exact ih
    | collect marked =>
      rw [run, gcCollect_ended, KeepsResult]
      by_cases hlost : isObject r = true ∧ marked = false
      · rw [if_pos hlost]
        refine (served_gone_iff true fun _ => rfl).trans ⟨fun h => ?_, fun h => h.1 ⟨rfl, hlost⟩⟩
        exact ⟨fun _ => h, keepsResult_of_no_calls h _ _⟩
      · rw [if_neg hlost]
        exact ih.trans (and_iff_right fun h => absurd h.2 hlost).symm

theorem served_ended_iff :
    Served r (calls events).length (min 1 (calls events).length)
        (run isObject events (ended (some r) false 0)) ↔
      JoinsLast events ∧ KeepsResult (isObject r) true events := by
  induction events with
  | nil => exact iff_of_true ⟨_, rfl, rfl⟩ ⟨nofun, trivial⟩
  | cons e events ih =>
    cases e with
    | call c =>
      have hjoins : min 1 (calls (.call c :: events)).length = 1 :=
        Nat.min_eq_left (Nat.le_add_left 1 _)
      rw [hjoins]
      cases c with
      | join =>
        have hrun : run isObject (.call .join :: events) (ended (some r) false 0) =
            (run isObject events released).map fun outs => (some r :: outs.1, outs.2) := rfl
        have hlen : (calls (.call .join :: events)).length = (calls events).length + 1 := rfl
        rw [hrun, hlen, run_released, served_cons_iff]
        constructor
        · rintro ⟨-, t, ht, -⟩
          have hnil : calls events = [] := by
            by_contra hne
            rw [if_neg hne] at ht
            cases ht
          refine ⟨fun rest hrest => ?_, keepsResult_of_no_calls hnil _ _⟩
          rw [← (List.cons.inj hrest).2]
          exact hnil
        · rintro ⟨hlast, -⟩
          have hnil : calls events = [] := hlast _ rfl
          rw [if_pos hnil, hnil]
          exact ⟨rfl, _, rfl, rfl⟩
      | await =>
        refine served_cons_iff.trans ((and_iff_right rfl).trans ?_)
        exact served_awaited_iff.trans (and_iff_right nofun).symm
    | finish => exact ih
    | collect marked =>
      rw [run, gcCollect_ended, KeepsResult]
      by_cases hlost : isObject r = true ∧ marked = false
      · rw [if_pos hlost]
        have hjoins (h : calls events = []) : min 1 (calls events).length = 0 := by rw [h]; rfl
        refine (served_gone_iff false hjoins).trans ⟨fun h => ?_, fun h => h.2.1 ⟨rfl, hlost⟩⟩
        refine ⟨fun rest hrest => ?_, fun _ => h, keepsResult_of_no_calls h _ _⟩
        rw [show calls events = _ from hrest] at h
        cases h
      · rw [if_neg hlost]
        exact ih.trans (and_congr_right fun _ => (and_iff_right fun h => absurd h.2 hlost).symm)

/-- For every result, every sequence of calls and collections and every time at which the thread
ends. -/
theorem handle_served_iff (isObject : V → Bool) (nil r : V) (events : List HandleEvent) :
    Served r (calls events).length (min 1 (calls events).length)
        (run isObject events (threadSpawn nil r)) ↔
      JoinsLast events ∧ KeepsResult (isObject r) false events := by
  induction events with
  | nil => exact iff_of_true ⟨_, rfl, rfl⟩ ⟨nofun, trivial⟩
  | cons e events ih =>
    cases e with
    | call c =>
      have hrun : run isObject (.call c :: events) (threadSpawn nil r) =
          run isObject (.call c :: events) (ended (some r) false 0) := by
        cases c <;> rfl
      rw [hrun]
      exact served_ended_iff
    | finish => exact served_ended_iff
    | collect marked =>
      refine Iff.trans ?_ (ih.trans (and_congr_right fun _ => (and_iff_right nofun).symm))
      cases marked <;> rfl

/-- The calls after a join follow a null pointer, and a collected result is gone. -/
theorem calls_go_astray :
    run (fun _ => true) [.finish, .call .join, .call .join] (threadSpawn 0 7) = none ∧
      run (fun _ => true) [.call .join, .call .await] (threadSpawn 0 7) = none ∧
      (run (fun _ => true) [.finish, .collect false, .call .join] (threadSpawn 0 7)).map (·.1) =
        some [none] :=
  ⟨rfl, rfl, rfl⟩

end SageOS.ThreadHandle
