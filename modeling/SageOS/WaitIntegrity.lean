import SageOS.EndpointFlow
import SageOS.GuardedRun
import SageOS.WaitQueue

/-!
# Runs of sends, receives and exits

The wait lists stay sound along every run in which no thread that is still in a list makes a
receive that may wait. Only an exiting thread brings that about: it wakes the threads that wait and
leaves them in their lists, so a thread that is woken this way and receives again is put behind
itself.
-/
namespace SageOS
open Kernel GuardedRun LinkedChain

inductive WaitEvent
  | send (task handle : ℕ) (msg : IpcMsg) (flags : UInt32)
  | recv (task handle : ℕ) (flags : UInt32)
  | recvResume (task ep : ℕ)
  | exit (task : ℕ)

namespace WaitEvent

def task : WaitEvent → ℕ
  | .send task _ _ _ | .recv task _ _ | .recvResume task _ | .exit task => task

def step (k : Kernel) (e : WaitEvent) : Kernel :=
  let k₁ := { k with current := e.task }
  match e with
  | .send _ handle msg flags => (k₁.sysIpcSend handle msg flags).2
  | .recv _ handle flags => (k₁.sysIpcRecv handle flags).2
  | .recvResume _ ep => (k₁.sysIpcRecvResume ep).2
  | .exit _ => k₁.schedExit

/-- A thread acts while it can run. -/
def Runs (k : Kernel) (e : WaitEvent) : Prop := k.runnable e.task

instance (k : Kernel) (e : WaitEvent) : Decidable (e.Runs k) :=
  inferInstanceAs (Decidable (k.runnable e.task))

/-- A receive that may wait is made by a thread that is in no wait list. -/
def FirstWait (k : Kernel) : WaitEvent → Prop
  | .recv task _ flags => flags &&& ipcMsgfNoblock = 0 → ¬ k.Waits task
  | _ => True

theorem waitSound_step {k : Kernel} {e : WaitEvent} (hk : k.WaitSound) (he : e.FirstWait k) :
    (step k e).WaitSound := by
  have hstart : ({ k with current := e.task } : Kernel).WaitSound := hk
  cases e with
  | send task handle msg flags => exact hstart.sysIpcSend handle msg flags
  | recv task handle flags => exact (hstart.sysIpcRecv handle flags he).sound
  | recvResume task ep => exact (SameWaits.ipcMsgDequeue _ ep).sound hstart
  | exit task => exact (SameWaits.schedExit _).sound hstart

/-- Every state of a run in which only threads in no list wait has sound wait lists. -/
theorem wait_lists_stay_sound (k : Kernel) (hk : k.WaitSound) (es : List WaitEvent)
    (hes : Guarded step (fun k e => e.FirstWait k) k es) : (run step k es).WaitSound :=
  invariant_run (fun _ _ => waitSound_step) hk hes

theorem waitSound_of_empty {k : Kernel} (h : ∀ ep, k.waitEnds ep = (none, none)) :
    k.WaitSound := by
  refine ⟨fun _ => [], fun ep => ?_, fun ep => ?_, fun _ _ _ _ h => absurd h List.not_mem_nil⟩
  · rw [h]
    rfl
  · rw [h]
    rfl

def withThread (k : Kernel) (name : Bytes) : Kernel :=
  (k.schedCreateThread name .normal).elim k (·.2)

/-- Threads 1 and 2 are created, and thread 1 makes endpoint 0. -/
def twoThreads : Kernel :=
  { withThread (withThread boot (bytes "a")) (bytes "b") with current := 1 }.sysIpcEndpointCreate.2

theorem waitEnds_twoThreads (ep : ℕ) : twoThreads.waitEnds ep = (none, none) := by
  by_cases hep : ep = 0
  · rw [hep]
    decide +kernel
  · have halloc : ({ withThread (withThread boot (bytes "a")) (bytes "b") with
        current := 1 } : Kernel).ipcAllocEndpoint.map Prod.fst = some 0 := by
      decide +kernel
    obtain ⟨⟨j, k'⟩, hk', hj⟩ := Option.map_eq_some_iff.mp halloc
    obtain rfl : j = 0 := hj
    unfold waitEnds twoThreads
    rw [endpoints_sysIpcEndpointCreate hk' hep]
    change ((withThread (withThread boot (bytes "a")) (bytes "b")).waitEnds ep) = _
    rfl

theorem not_waits_twoThreads (t : ℕ) : ¬ twoThreads.Waits t := by
  rintro ⟨ep, l, hl, hmem⟩
  rw [waitEnds_twoThreads] at hl
  rw [hl.unique (linked_nil.mpr rfl)] at hmem
  cases hmem

/-- All threads hold the capabilities that thread 1 has. -/
def shareTable (k : Kernel) : Kernel := { k with ipcExt := fun _ => k.ipcExt 1 }

theorem sameWaits_shareTable (k : Kernel) : SameWaits k (shareTable k) := .of_eq rfl rfl

/-- Threads 1 and 2 wait, and thread 0 wakes one of them with a message and exits. -/
theorem two_waits_are_sound : (run step (shareTable twoThreads)
    [.recv 1 1 0, .recv 2 1 0, .send 0 1 {} 0, .exit 0]).WaitSound := by
  have hsame := sameWaits_shareTable twoThreads
  generalize shareTable twoThreads = k at hsame
  have hk : k.WaitSound := hsame.sound (waitSound_of_empty waitEnds_twoThreads)
  have hnone : ∀ t, ¬ k.Waits t := fun t => (hsame.waits t).not.mpr (not_waits_twoThreads t)
  have hsecond : ¬ (step k (.recv 1 1 0)).Waits 2 := by
    intro hwaits
    have hstart : ({ k with current := 1 } : Kernel).WaitSound := hk
    rcases (hstart.sysIpcRecv 1 0 fun _ => hnone 1).waits hwaits with h | h
    · exact hnone 2 h
    · exact absurd (show 2 = 1 from h) (by decide)
  exact wait_lists_stay_sound k hk _
    ⟨fun _ => hnone 1, fun _ => hsecond, trivial, trivial, trivial⟩

/-- Thread 1 waits, thread 2 exits, and thread 1 waits again behind itself. -/
def waitTwice : List WaitEvent := [.recv 1 1 0, .exit 2, .recvResume 1 0, .recv 1 1 0]

theorem exit_breaks_wait_list : Guarded step Runs twoThreads waitTwice ∧ twoThreads.WaitSound ∧
      ¬ (run step twoThreads waitTwice).WaitSound := by
  refine ⟨⟨by decide +kernel, by decide +kernel, by decide +kernel, by decide +kernel, trivial⟩,
    waitSound_of_empty waitEnds_twoThreads, ?_⟩
  · rintro ⟨lists, hlists⟩
    have hhead : ((run step twoThreads waitTwice).waitEnds 0).1 = some 1 := by decide +kernel
    have hself : (run step twoThreads waitTwice).waitNext 1 = some 1 := by decide +kernel
    have hlinked := hlists.linked 0
    rw [hhead] at hlinked
    exact Linked.not_self hself hlinked

end WaitEvent
end SageOS
