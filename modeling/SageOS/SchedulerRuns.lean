import SageOS.GuardedRun
import SageOS.ThreadLifecycle

/-!
# Runs of the scheduler

A call changes some threads and may then enter `sched_schedule`, which goes to the next runnable
thread or waits for an interrupt to ready one. `sys_vfork` goes to the child by itself. A run
records the thread that executes, the state in which each thread was gone to, and how often a
thread that stays ready was passed over. Going to a child that was given a slot far behind passes
over every ready thread in between, and the round robin then starts from there.
-/
namespace SageOS
open Kernel GuardedRun List

inductive SchedEvent
  | create (name : Bytes) (priority : ThreadPriority)
  | schedule
  | block
  | unblock (i : ℕ)
  | exit
  | vfork
  | waitpid (pid : ℕ)
  deriving DecidableEq

namespace SchedEvent

/-- What a call does before it enters `sched_schedule`, and whether it enters it. -/
def direct (k : Kernel) : SchedEvent → Kernel × Bool
  | .create name priority => ((k.schedCreateThread name priority).elim k (·.2), false)
  | .schedule => (k, true)
  | .block => (k.modifyTask k.current fun t => { t with state := .blocked }, true)
  | .unblock i => (k.schedUnblock i, false)
  | .exit => ((k.modifyTask k.current fun t => { t with state := .terminated }).wakeAll, true)
  | .vfork => (k.sysVfork.2, false)
  | .waitpid pid =>
    match k.schedGetThreadById pid with
    | none => (k, false)
    | some c =>
      if (k.tasks c).state = .terminated then ((k.sysWaitpid pid).2, false)
      else (k.modifyTask k.current fun t => { t with state := .blocked }, true)

/-- The whole call, for a thread that is gone to again. -/
def act (k : Kernel) : SchedEvent → Kernel
  | .create name priority => (k.schedCreateThread name priority).elim k (·.2)
  | .schedule => k.schedSchedule
  | .block => k.schedBlock
  | .unblock i => k.schedUnblock i
  | .exit => k.schedExit
  | .vfork => k.sysVfork.2
  | .waitpid pid => (k.sysWaitpid pid).2

theorem act_eq (k : Kernel) (e : SchedEvent) :
    e.act k = if (e.direct k).2 then (e.direct k).1.schedSchedule else (e.direct k).1 := by
  cases e with
  | waitpid pid =>
    cases h : k.schedGetThreadById pid with
    | none => simp [act, direct, sysWaitpid, h]
    | some c =>
      by_cases hdone : (k.tasks c).state = .terminated <;>
        simp [act, direct, sysWaitpid, h, hdone]
  | _ => rfl

/-- The calls that can be made while `sched_schedule` waits; it then looks for a thread again. -/
def isInterrupt : SchedEvent → Bool
  | .schedule => true
  | .unblock _ => true
  | _ => false

end SchedEvent

structure SchedRun where
  kernel : Kernel
  executing : ℕ := 0
  waiting : Bool := false
  passed : ℕ → ℕ := fun _ => 0
  switched : List ThreadState := []

/-- The slots that the round robin from slot `i` on meets before slot `j`. -/
def ahead (i j : ℕ) : ℕ := (j + (maxTasks - 1) - i) % maxTasks

namespace SchedRun

/-- `sched_schedule`, or one round of its loop. -/
def select (s : SchedRun) : SchedRun :=
  match s.kernel.schedNext with
  | none => { s with waiting := true }
  | some n =>
    { kernel := s.kernel.schedSchedule
      executing := n
      waiting := false
      passed := fun r => if (s.kernel.tasks r).state = .ready ∧ r ≠ n then s.passed r + 1 else 0
      switched := (s.kernel.tasks n).state :: s.switched }

/-- The direct part of a call; when it sets another current thread, that one is gone to. -/
def move (s : SchedRun) (k : Kernel) : SchedRun :=
  { s with
    kernel := k
    executing := if k.current = s.kernel.current then s.executing else k.current
    passed := fun r =>
      if (s.kernel.tasks r).state = .ready ∧ (k.tasks r).state = .ready then
        if k.current = s.kernel.current then s.passed r else s.passed r + 1
      else 0
    switched := if k.current = s.kernel.current then s.switched
      else (k.tasks k.current).state :: s.switched }

def step (s : SchedRun) (e : SchedEvent) : SchedRun :=
  if s.waiting ∧ ¬ e.isInterrupt then s
  else if (e.direct s.kernel).2 then (s.move (e.direct s.kernel).1).select
  else s.move (e.direct s.kernel).1

/-- No ready thread stands between the caller of `sys_vfork` and the slot of the child. -/
def Fair (s : SchedRun) (e : SchedEvent) : Prop :=
  e = .vfork → ∀ r < maxTasks, (s.kernel.tasks r).state = .ready →
    ∀ c ∈ s.kernel.firstUnused, ahead s.kernel.current c < ahead s.kernel.current r

structure Scheduled (s : SchedRun) : Prop where
  alone : s.waiting = false →
    s.executing = s.kernel.current ∧ ∀ i, (s.kernel.tasks i).state = .running → i = s.executing
  switched : ∀ st ∈ s.switched, st ≠ .blocked ∧ st ≠ .terminated ∧ st ≠ .unused
  passed : ∀ r < maxTasks, s.passed r ≤ maxTasks

/-- What every step keeps. The nearer a thread comes, the more often it may have been passed. -/
structure Kept (s : SchedRun) : Prop where
  current : s.kernel.current < maxTasks
  executing : s.executing = s.kernel.current
  running : ∀ i, (s.kernel.tasks i).state = .running → i = s.kernel.current
  switched : ∀ st ∈ s.switched, st = .ready ∨ st = .running
  passed : ∀ r < maxTasks, s.passed r + ahead s.kernel.current r < maxTasks

end SchedRun

namespace Kernel
variable {k k' k'' : Kernel}

theorem ahead_lt (i j : ℕ) : ahead i j < maxTasks := Nat.mod_lt _ (by decide)

theorem ahead_lt_of_between {i j r : ℕ} (hi : i < maxTasks) (hj : j < maxTasks) (hr : r < maxTasks)
    (h : ahead i j < ahead i r) : ahead j r < ahead i r := by
  unfold ahead maxTasks at *
  omega

theorem schedNext_spec {n : ℕ} (hcur : k.current < maxTasks) (h : k.schedNext = some n) :
    n < maxTasks ∧ k.runnable n ∧ ∀ r < maxTasks, k.runnable r → r ≠ n →
      ahead k.current n < ahead k.current r := by
  unfold schedNext at h
  rw [find?_map] at h
  obtain ⟨i, hi, rfl⟩ := Option.map_eq_some_iff.mp h
  obtain ⟨hrun, hlt, hmin⟩ := find?_range_eq_some.mp hi
  refine ⟨Nat.mod_lt _ (by decide), of_decide_eq_true hrun, fun r hr hrrun hne => ?_⟩
  by_contra hle
  have hfirst := hmin (ahead k.current r)
  have hslot : (k.current + (ahead k.current r + 1)) % maxTasks = r := by
    unfold ahead maxTasks at *
    omega
  simp only [Function.comp_apply, hslot, hrrun, decide_true] at hfirst
  have hge : ¬ ahead k.current r < i := fun hlt' => by simpa using hfirst hlt'
  unfold ahead maxTasks at *
  omega

/-- No thread starts to run, and the current one stays. -/
structure Calm (k k' : Kernel) : Prop where
  current : k'.current = k.current
  running : ∀ i, (k'.tasks i).state = .running → (k.tasks i).state = .running

namespace Calm

theorem refl (k : Kernel) : Calm k k := ⟨rfl, fun _ h => h⟩

theorem trans (h : Calm k k') (h' : Calm k' k'') : Calm k k'' :=
  ⟨h'.current.trans h.current, fun i hi => h.running i (h'.running i hi)⟩

theorem setState (k : Kernel) (i : ℕ) {st : ThreadState} (hst : st ≠ .running) :
    Calm k (k.modifyTask i fun t => { t with state := st }) := by
  refine ⟨rfl, fun j hj => ?_⟩
  by_cases hji : j = i
  · subst hji
    rw [modifyTask, setTask_self] at hj
    exact absurd hj hst
  · rwa [modifyTask, setTask_of_ne _ hji] at hj

theorem wakeAll (k : Kernel) : Calm k k.wakeAll := by
  refine ⟨rfl, fun i hi => ?_⟩
  unfold Kernel.wakeAll at hi
  dsimp only at hi
  split_ifs at hi
  exact hi

theorem direct {e : SchedEvent} (he : e ≠ .vfork) : Calm k (e.direct k).1 := by
  cases e with
  | create name priority =>
    change Calm k ((k.schedCreateThread name priority).elim k (·.2))
    cases h : k.schedCreateThread name priority with
    | none => exact refl k
    | some r =>
      have hcr := k.schedCreateThread_created h
      refine ⟨hcr.current, fun i hi => ?_⟩
      by_cases hir : i = r.1
      · rw [hir] at hi
        cases hcr.state.symm.trans hi
      · exact hcr.frame i hir ▸ hi
  | schedule => exact refl k
  | block => exact setState _ _ (by decide)
  | unblock i =>
    change Calm k (k.schedUnblock i)
    unfold schedUnblock
    split_ifs
    · exact setState _ _ (by decide)
    · exact refl k
  | exit => exact (setState _ _ (by decide)).trans (wakeAll _)
  | vfork => exact absurd rfl he
  | waitpid pid =>
    unfold SchedEvent.direct sysWaitpid
    dsimp only
    cases k.schedGetThreadById pid with
    | none => exact refl k
    | some c =>
      dsimp only
      split_ifs
      · have hrel := Released.schedIpcCleanupThread k c
        exact trans ⟨hrel.current, fun i hi => hrel.tasks ▸ hi⟩ (setState _ _ (by decide))
      · exact setState _ _ (by decide)

end Calm

theorem sysVfork_spec {c : ℕ} (hc : k.firstUnused = some c) :
    k.sysVfork.2.current = c ∧ (k.sysVfork.2.tasks c).state = .running ∧
      ∀ i ≠ c, k.sysVfork.2.tasks i =
        if i = k.current then { k.tasks i with state := .blocked } else k.tasks i := by
  obtain ⟨k', h⟩ : ∃ k', k.schedCreateThread (bytes "vfork_child") (k.tasks k.current).priority =
      some (c, k') := by simp [schedCreateThread, hc]
  have hcr := k.schedCreateThread_created h
  unfold sysVfork
  rw [h]
  refine ⟨rfl, by simp [modifyTask], fun i hi => ?_⟩
  by_cases hcur : i = k.current
  · have hframe := hcr.frame i hi
    subst hcur
    simp [modifyTask, setTask, hi, hframe]
  · simp [modifyTask, setTask, hi, hcur, hcr.frame i hi]

end Kernel

namespace SchedRun
variable {s : SchedRun}

theorem kept_boot : Kept { kernel := Kernel.boot } where
  current := by decide
  executing := rfl
  running i hi := by
    by_contra hne
    change i ≠ 0 at hne
    simp [Kernel.boot, schedInit, ipcSubsystemInit, hne] at hi
  switched := nofun
  passed r _ := by simpa using ahead_lt _ _

theorem Kept.move (h : s.Kept) {k : Kernel} (hcur : k.current < maxTasks)
    (hrunning : ∀ i, (k.tasks i).state = .running → i = k.current)
    (hgone : k.current ≠ s.kernel.current → (k.tasks k.current).state = .running ∧
      ∀ r < maxTasks, (s.kernel.tasks r).state = .ready →
        ahead k.current r < ahead s.kernel.current r) : (s.move k).Kept := by
  unfold SchedRun.move
  refine ⟨hcur, ?_, hrunning, ?_, fun r hr => ?_⟩
  · split_ifs with heq
    · exact h.executing.trans heq.symm
    · rfl
  · split_ifs with heq
    · exact h.switched
    · exact forall_mem_cons.mpr ⟨.inr (hgone heq).1, h.switched⟩
  · have := h.passed r hr
    have := ahead_lt k.current r
    dsimp only
    split_ifs with hready heq
    · rwa [heq]
    · have := (hgone heq).2 r hr hready.1
      omega
    · omega

theorem Kept.moveCalm (h : s.Kept) {k : Kernel} (hk : Calm s.kernel k) : (s.move k).Kept :=
  h.move (hk.current ▸ h.current)
    (fun i hi => (h.running i (hk.running i hi)).trans hk.current.symm)
    fun hne => absurd hk.current hne

theorem Kept.vfork (h : s.Kept) (hfair : s.Fair .vfork) : (s.move s.kernel.sysVfork.2).Kept := by
  cases hfirst : s.kernel.firstUnused with
  | none =>
    rw [sysVfork_of_firstUnused_eq_none hfirst]
    exact h.moveCalm (Calm.refl _)
  | some c =>
    obtain ⟨rfl, hchild, hrest⟩ := sysVfork_spec hfirst
    have hlt := (s.kernel.firstUnused_eq_some_iff.mp hfirst).1
    refine h.move hlt (fun i hi => ?_) fun _ => ⟨hchild, fun r hr hready =>
      ahead_lt_of_between h.current hlt hr (hfair rfl r hr hready _ hfirst)⟩
    by_contra hne
    rw [hrest i hne] at hi
    split_ifs at hi with hi'
    exact hi' (h.running i hi)

theorem Kept.select (h : s.Kept) : s.select.Kept := by
  unfold SchedRun.select
  cases hnext : s.kernel.schedNext with
  | none => exact ⟨h.current, h.executing, h.running, h.switched, h.passed⟩
  | some n =>
    obtain ⟨hlt, hrun, hfirst⟩ := schedNext_spec h.current hnext
    have hcur : s.kernel.schedSchedule.current = n := by
      unfold schedSchedule
      rw [hnext]
      dsimp only
      split_ifs with hn
      · exact hn.symm
      all_goals rfl
    refine ⟨hcur ▸ hlt, hcur.symm, fun i hi => ?_, ?_, fun r hr => ?_⟩
    · rw [hcur]
      by_contra hne
      unfold schedSchedule at hi
      rw [hnext] at hi
      dsimp only at hi
      split_ifs at hi with hn hrunning
      · exact hne ((h.running i hi).trans hn.symm)
      · by_cases hi' : i = s.kernel.current
        · subst hi'
          simp [modifyTask, setTask, hne] at hi
        · simp [modifyTask, setTask, hne, hi'] at hi
          exact hi' (h.running i hi)
      · simp [modifyTask, setTask, hne] at hi
        exact hrunning (h.running i hi ▸ hi)
    · exact forall_mem_cons.mpr ⟨hrun, h.switched⟩
    · dsimp only
      rw [hcur]
      split_ifs with hready
      · have hnear := ahead_lt_of_between h.current hlt hr (hfirst r hr (.inl hready.1) hready.2)
        have := h.passed r hr
        omega
      · rw [Nat.zero_add]
        exact ahead_lt _ _

theorem Kept.step (h : s.Kept) {e : SchedEvent} (hfair : s.Fair e) : (s.step e).Kept := by
  have hmove : (s.move (e.direct s.kernel).1).Kept := by
    by_cases he : e = .vfork
    · subst he
      exact h.vfork hfair
    · exact h.moveCalm (Calm.direct he)
  unfold SchedRun.step
  split_ifs
  · exact h
  · exact hmove.select
  · exact hmove

theorem scheduled_of_fair_run (es : List SchedEvent)
    (hes : Guarded step Fair { kernel := Kernel.boot } es) :
    (run step { kernel := Kernel.boot } es).Scheduled := by
  have hstep : ∀ s e, Kept s → Fair s e → Kept (step s e) := fun _ _ h hfair => h.step hfair
  have h := invariant_run hstep kept_boot hes
  refine ⟨fun _ => ⟨h.executing, h.executing.symm ▸ h.running⟩, fun st hst => ?_, fun r hr => ?_⟩
  · rcases h.switched st hst with rfl | rfl <;> decide
  · have := h.passed r hr
    omega

/-- Thread 1 makes a child in the slot of thread 2, which has been reaped, while threads 0 and 3
are ready. -/
def crowdedVfork : List SchedEvent :=
  [.create [] .normal, .create [] .normal, .create [] .normal, .schedule, .schedule, .exit,
    .waitpid 2, .schedule, .schedule, .vfork, .exit]

theorem crowded_vfork_scheduled : (run step { kernel := Kernel.boot } crowdedVfork).Scheduled :=
  scheduled_of_fair_run _ ⟨nofun, nofun, nofun, nofun, nofun, nofun, nofun, nofun, nofun,
    fun _ => by decide +kernel, nofun, trivial⟩

/-- Thread 2 makes `n` children in slot 1, one after another; each exits and is reaped. -/
def starving (n : ℕ) : List SchedEvent :=
  [.create [] .normal, .create [] .normal, .create [] .normal, .schedule, .exit, .waitpid 1] ++
    (range n).flatMap fun i => [.vfork, .exit, .waitpid (4 + i)]

/-- A thread that makes children again and again is the only one to run. -/
theorem vforks_starve_thread : (run step { kernel := Kernel.boot } (starving 64)).passed 3 = 130 ∧
      ¬ (run step { kernel := Kernel.boot } (starving 64)).Scheduled := by
  have hpassed : (run step { kernel := Kernel.boot } (starving 64)).passed 3 = 130 := by
    decide +kernel
  refine ⟨hpassed, fun h => ?_⟩
  have hle := h.passed 3 (by decide)
  rw [hpassed] at hle
  exact absurd hle (by decide)

end SchedRun
end SageOS
