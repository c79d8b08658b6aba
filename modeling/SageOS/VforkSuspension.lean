import SageOS.ThreadLifecycle
import SageOS.GuardedRun

/-!
# Parents suspended by vfork

Beside the calls that wake only the thread at the head of a wait queue, every creation and every
reaping leaves a blocked thread blocked; leaving a thread is the one step that wakes every blocked
thread. A run is followed with the vforks that are under way: a parent and its child, from the
switch to the child until the child has terminated. A parent stays suspended in the runs in which,
while it waits, no other thread than the child leaves and no message finds it at the head of a wait
queue.
-/
namespace SageOS
open List
namespace Kernel
namespace Suspended
variable {k k' : Kernel} {p : ℕ}

theorem created (h : k.Suspended p) {i : ℕ} (hcr : Created k i k') : k'.Suspended p := by
  have hne : p ≠ i := by
    rintro rfl
    cases h.1.symm.trans hcr.unused
  refine ⟨?_, ?_⟩
  · rw [hcr.frame p hne]
    exact h.1
  · rw [hcr.current]
    exact h.2

theorem schedCreateThread (h : k.Suspended p) (name : Bytes) (priority : ThreadPriority) :
    ((k.schedCreateThread name priority).elim k (·.2)).Suspended p := by
  cases hc : k.schedCreateThread name priority with
  | none => exact h
  | some r => exact h.created (schedCreateThread_created k hc)

theorem osSpawnTask (h : k.Suspended p) (name path : Bytes) :
    (k.osSpawnTask name path).2.2.Suspended p := by
  unfold Kernel.osSpawnTask
  cases k.arena.sageMalloc (path.length + 1) with
  | none => exact h
  | some r =>
    have harena : ({ k with arena := r.2 } : Kernel).Suspended p := h.congr rfl rfl
    dsimp only
    cases hc : ({ k with arena := r.2 } : Kernel).schedCreateThread name .normal with
    | none => exact h.congr rfl rfl
    | some r' =>
      obtain ⟨c, k₁⟩ := r'
      have hcr := schedCreateThread_created _ hc
      have hne : c ≠ p := by
        rintro rfl
        cases h.1.symm.trans hcr.unused
      have hcap := (harena.created hcr).modifyTask_of_ne hne
        fun t => { t with permissions := t.permissions ||| permVfsCapOnly }
      exact hcap.congr rfl rfl

theorem sysWaitpid (h : k.Suspended p) (pid : ℕ) : (k.sysWaitpid pid).2.Suspended p := by
  unfold Kernel.sysWaitpid
  cases k.schedGetThreadById pid with
  | none => exact h
  | some c =>
    dsimp only
    split_ifs with ht
    · have hrel := Released.schedIpcCleanupThread k c
      have hne : c ≠ p := by
        intro he
        rw [he, h.1] at ht
        cases ht
      have hkept : (k.schedIpcCleanupThread c).Suspended p := h.congr hrel.tasks hrel.current
      exact hkept.modifyTask_of_ne hne fun t => { t with state := .unused }
    · exact h.schedBlock

end Suspended
end Kernel

open Kernel GuardedRun

structure VforkRun where
  kernel : Kernel
  pending : List (ℕ × ℕ) := []

namespace VforkRun

def Alive (k : Kernel) (c : ℕ) : Prop :=
  (k.tasks c).state ≠ .terminated ∧ (k.tasks c).state ≠ .unused

instance (k : Kernel) (c : ℕ) : Decidable (Alive k c) := inferInstanceAs (Decidable (_ ∧ _))

def forked (k : Kernel) : ThreadEvent → Option ℕ
  | .vfork => if (k.tasks k.current).state = .running then k.sysVfork.1 else none
  | _ => none

def step (s : VforkRun) (e : ThreadEvent) : VforkRun :=
  let k := e.step s.kernel
  let started := (forked s.kernel e).toList.map fun c => (s.kernel.current, c)
  { kernel := k, pending := (started ++ s.pending).filter fun pc => Alive k pc.2 }

/-- No parent runs while its child is under way. -/
def ParentsWait (s : VforkRun) : Prop := ∀ pc ∈ s.pending, s.kernel.current ≠ pc.1

instance (s : VforkRun) : Decidable s.ParentsWait := inferInstanceAs (Decidable (∀ _ ∈ _, _))

/-- While a parent waits, only its child leaves, and no message finds it at the head of a queue. -/
def Undisturbed (s : VforkRun) : ThreadEvent → Prop
  | .exit _ => ∀ pc ∈ s.pending, pc.2 = s.kernel.current
  | .ipc _ => ∀ pc ∈ s.pending, ∀ ep, (s.kernel.endpoints ep).waitHead ≠ some pc.1
  | _ => True

/-- Every parent under way is suspended. -/
def Kept (s : VforkRun) : Prop := ∀ pc ∈ s.pending, s.kernel.Suspended pc.1

variable {s : VforkRun}

theorem Kept.parentsWait (h : s.Kept) : s.ParentsWait := fun pc hpc => (h pc hpc).2

variable {e : ThreadEvent}

theorem kept_step_of (hf : forked s.kernel e = none)
    (hk : ∀ pc ∈ s.pending, Alive (e.step s.kernel) pc.2 → (e.step s.kernel).Suspended pc.1) :
    (s.step e).Kept := by
  intro pc hpc
  have hmem : pc ∈ s.pending ∧ Alive (e.step s.kernel) pc.2 := by
    simpa [step, hf] using hpc
  exact hk pc hmem.1 hmem.2

theorem suspended_sysVfork {k k' : Kernel} {c : ℕ} (hvfork : k.sysVfork = (some c, k')) {p : ℕ}
    (hp : p = k.current ∨ k.Suspended p) (hrun : (k.tasks k.current).state = .running) :
    k'.Suspended p := by
  unfold sysVfork at hvfork
  cases hc : k.schedCreateThread (bytes "vfork_child") (k.tasks k.current).priority with
  | none => simp [hc] at hvfork
  | some r =>
    obtain ⟨c', k₁⟩ := r
    have hcr := k.schedCreateThread_created hc
    simp only [hc, Prod.mk.injEq, Option.some.injEq] at hvfork
    obtain ⟨rfl, rfl⟩ := hvfork
    have hne : p ≠ c' := by
      rintro rfl
      rcases hp with rfl | hp
      · cases hrun.symm.trans hcr.unused
      · cases hp.1.symm.trans hcr.unused
    refine ⟨?_, hne.symm⟩
    rcases hp with rfl | hp
    · simp [modifyTask, setTask, hne]
    · have hcur : p ≠ k.current := hp.2.symm
      simp [modifyTask, setTask, hne, hcur, hcr.frame p hne, hp.1]

variable {k : Kernel}

theorem state_schedSchedule {i : ℕ} (h : (k.tasks i).state = .terminated) :
    (k.schedSchedule.tasks i).state = .terminated := by
  unfold schedSchedule
  cases hn : k.schedNext with
  | none => exact h
  | some n =>
    have hne : i ≠ n := by
      rintro rfl
      rcases runnable_of_schedNext hn with hr | hr
      · cases h.symm.trans hr
      · cases h.symm.trans hr
    dsimp only
    split_ifs with hcur hr
    · exact h
    · have hi : i ≠ k.current := by
        rintro rfl
        cases h.symm.trans hr
      simp [modifyTask, setTask, hne, hi, h]
    · simp [modifyTask, setTask, hne, h]

theorem not_alive_sysExit (k : Kernel) (code : ℤ) : ¬ Alive (k.sysExit code) k.current := by
  have hcur := (Settled.restoreParentImage
    (k.modifyTask k.current fun t => { t with exitCode := code }) k.current).2
  intro h
  apply h.1
  apply state_schedSchedule
  rw [hcur]
  simp [wakeAll, modifyTask, setTask]

theorem step_of_running (hrun : (k.tasks k.current).state = .running)
    (e : ThreadEvent) : e.step k = e.act k := by
  cases e with
  | schedule => rfl
  | _ => exact if_pos hrun

theorem step_of_not_running (hrun : (k.tasks k.current).state ≠ .running)
    (he : e ≠ .schedule) : e.step k = k := by
  cases e with
  | schedule => exact absurd rfl he
  | _ => exact if_neg hrun

theorem suspended_act {p : ℕ} (h : k.Suspended p)
    (hvfork : e ≠ .vfork) (hexit : ∀ code, e ≠ .exit code)
    (hipc : ∀ c, e = .ipc c → ∀ ep, (k.endpoints ep).waitHead ≠ some p) :
    (e.act k).Suspended p := by
  cases e with
  | create name priority => exact h.schedCreateThread name priority
  | vfork => exact absurd rfl hvfork
  | spawn name path => exact h.osSpawnTask name path
  | exit code => exact absurd rfl (hexit code)
  | waitpid pid => exact h.sysWaitpid pid
  | ipc c => exact c.exec_suspended h (hipc c rfl)
  | schedule => exact h.schedSchedule

theorem kept_vfork (h : s.Kept)
    (hrun : (s.kernel.tasks s.kernel.current).state = .running) : (s.step .vfork).Kept := by
  have hk : ThreadEvent.step s.kernel .vfork = s.kernel.sysVfork.2 := if_pos hrun
  cases hv : s.kernel.sysVfork with
  | mk child k =>
    rw [hv] at hk
    cases child with
    | none =>
      have hf : forked s.kernel .vfork = none := by
        unfold forked
        rw [if_pos hrun, hv]
      apply kept_step_of hf
      intro pc hpc _
      rw [hk, eq_of_sysVfork_eq_none hv]
      exact h pc hpc
    | some c =>
      have hf : forked s.kernel .vfork = some c := by
        unfold forked
        rw [if_pos hrun, hv]
      intro pc hpc
      unfold step at hpc ⊢
      rw [hk, hf] at hpc
      rw [hk]
      rcases mem_cons.mp (mem_filter.mp hpc).1 with rfl | hmem
      · exact suspended_sysVfork hv (.inl rfl) hrun
      · exact suspended_sysVfork hv (.inr (h pc hmem)) hrun

theorem Kept.step (h : s.Kept) (he : s.Undisturbed e) : (s.step e).Kept := by
  by_cases hrun : (s.kernel.tasks s.kernel.current).state = .running
  · cases e with
    | vfork => exact kept_vfork h hrun
    | exit code =>
      apply kept_step_of rfl
      intro pc hpc halive
      rw [step_of_running hrun, he pc hpc] at halive
      exact absurd halive (not_alive_sysExit s.kernel code)
    | ipc c =>
      apply kept_step_of rfl
      intro pc hpc _
      rw [step_of_running hrun]
      exact c.exec_suspended (h pc hpc) (he pc hpc)
    | _ =>
      apply kept_step_of rfl
      intro pc hpc _
      rw [step_of_running hrun]
      exact suspended_act (h pc hpc) nofun nofun nofun
  · have hf : forked s.kernel e = none := by
      cases e with
      | vfork => exact if_neg hrun
      | _ => rfl
    apply kept_step_of hf
    intro pc hpc _
    by_cases hs : e = .schedule
    · subst hs
      exact (h pc hpc).schedSchedule
    · rw [step_of_not_running hrun hs]
      exact h pc hpc

/-- In every run whose steps leave waiting parents undisturbed, no parent is scheduled between its
vfork and the end of that child, however many threads are created, run, block and leave. -/
theorem parent_waits_for_child (k : Kernel) (es : List ThreadEvent)
    (h : Guarded step Undisturbed ⟨k, []⟩ es) : (run step ⟨k, []⟩ es).ParentsWait := by
  have hstart : Kept ⟨k, []⟩ := forall_mem_nil _
  have hstep : ∀ s e, Kept s → Undisturbed s e → Kept (step s e) := fun _ _ hs he => hs.step he
  exact (invariant_run hstep hstart h).parentsWait

/-- A vfork whose child yields and then exits. -/
theorem vfork_and_exit_waits :
    Guarded step Undisturbed ⟨Kernel.boot, []⟩ [.vfork, .schedule, .exit 0] ∧
      (run step ⟨Kernel.boot, []⟩ [.vfork, .schedule, .exit 0]).ParentsWait := by
  have h : Guarded step Undisturbed ⟨Kernel.boot, []⟩ [.vfork, .schedule, .exit 0] := by
    refine ⟨trivial, trivial, ?_, trivial⟩
    change ∀ pc ∈ (run step ⟨Kernel.boot, []⟩ [.vfork, .schedule]).pending,
      pc.2 = (run step ⟨Kernel.boot, []⟩ [.vfork, .schedule]).kernel.current
    decide
  exact ⟨h, parent_waits_for_child Kernel.boot _ h⟩

/-- The child yields to another thread, which exits and so wakes the parent. -/
def exitOfAnother : List ThreadEvent :=
  [.create (bytes "worker") .normal, .vfork, .schedule, .exit 0, .schedule]

theorem exit_of_another_wakes_parent :
    (run step ⟨Kernel.boot, []⟩ exitOfAnother).pending = [(0, 2)] ∧
      ¬ (run step ⟨Kernel.boot, []⟩ exitOfAnother).ParentsWait := by
  decide

end VforkRun
end SageOS
