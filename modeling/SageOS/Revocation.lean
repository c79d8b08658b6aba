import SageOS.EndpointFlow
import SageOS.RightsFlow

/-!
# Revocation

Destroying an endpoint makes it dead and releases its ring, and nothing else: the messages stay
counted, and the capabilities of others keep naming the pool entry. An endpoint that was empty when
it was destroyed stays silent for as long as its pool entry is not taken for a new endpoint. One
that was not empty still delivers what it counts, from a ring that is gone.
-/
namespace SageOS
open Kernel GuardedRun Function
namespace IpcEvent

/-- The handle is a capability of the caller on endpoint `ep`. -/
def Through (k : Kernel) (e : IpcEvent) (handle ep : ℕ) : Prop :=
  (k.cap (k.extIndex e.task) handle).objectType = .endpoint ∧
    (k.cap (k.extIndex e.task) handle).objectId = ep

/-- Nothing is sent to the endpoint or received from it, and who tries fails. -/
structure Silent (ep : ℕ) (k : Kernel) (e : IpcEvent) : Prop where
  sent : ((step k e).endpoints ep).msgsSent = (k.endpoints ep).msgsSent
  received : ((step k e).endpoints ep).msgsRecv = (k.endpoints ep).msgsRecv
  send : ∀ handle msg flags, e.call = .send handle msg flags → e.Through k handle ep →
    ((e.start k).sysIpcSend handle msg flags).1 < 0
  recv : ∀ handle flags, e.call = .recv handle flags → e.Through k handle ep →
    ∃ code < 0, ((e.start k).sysIpcRecv handle flags).1 = .ret code
  resume : e.call = .recvResume ep → ∃ code < 0, ((e.start k).sysIpcRecvResume ep).1 = .ret code
  call : ∀ handle req, e.call = .call handle req → e.Through k handle ep →
    ∃ code < 0, ((e.start k).sysIpcCall handle req).1 = .ret code

/-- A new endpoint takes a lower pool entry. -/
def NotReused (ep : ℕ) (k : Kernel) (e : IpcEvent) : Prop :=
  e.call.creates = true → ∃ i < ep, (k.endpoints i).state.isFree = true

end IpcEvent

namespace Kernel

structure Closed (k : Kernel) (ep : ℕ) : Prop where
  dead : (k.queues ep).state = .dead
  empty : (k.queues ep).msgCount = 0

variable {k : Kernel} {ep handle : ℕ} {call : IpcCall} {q : ℕ → QueueView}

theorem Closed.withState (h : k.Closed ep) : (k.queues ep).withState .dead = k.queues ep := by
  obtain ⟨hdead, -⟩ := h
  unfold QueueView.withState
  rw [← hdead]

theorem setState_of_ne {j : ℕ} (hj : ep ≠ j) (s : IpcLifecycleState) :
    k.setState j s ep = k.queues ep := update_of_ne hj _ _

theorem Closed.setState_dead (h : k.Closed ep) (j : ℕ) : k.setState j .dead ep = k.queues ep := by
  by_cases hj : ep = j
  · subst hj
    exact (update_self _ _ _).trans h.withState
  · exact setState_of_ne hj .dead

theorem Closed.flow (h : k.Closed ep) (hflow : QueueFlow k call q)
    (hfree : call.creates = true → ∃ i < ep, (k.endpoints i).state.isFree = true) :
    q ep = k.queues ep := by
  have hshut {handle : ℕ} {msg : IpcMsg} {flags : UInt32} {j : ℕ}
      (hj : k.Accepts handle msg flags j) : ep ≠ j := by
    rintro rfl
    have hopen := hj.isOpen
    rw [show (k.endpoints ep).state = .dead from h.dead] at hopen
    cases hopen
  have hlive {s : IpcLifecycleState} {j : ℕ} (hs : (k.queues j).state = s) (hne : s ≠ .dead) :
      ep ≠ j := by
    rintro rfl
    exact hne (hs.symm.trans h.dead)
  cases hflow with
  | same => rfl
  | sent hacc => exact update_of_ne (hshut hacc) _ _
  | received hpos | receivedLater hpos =>
    apply update_of_ne
    rintro rfl
    exact hpos h.empty
  | called hacc => exact update_of_ne (hshut hacc.toAccepts) _ _
  | answered hacc hq hpos =>
    have hep := hshut hacc.toAccepts
    subst hq
    rw [update_of_ne, update_of_ne hep]
    rintro rfl
    rw [update_of_ne hep] at hpos
    exact hpos h.empty
  | paused _ hs => exact setState_of_ne (hlive hs nofun) _
  | resumed _ _ hep hs => exact setState_of_ne (hlive hs nofun) _
  | draining _ hs => exact setState_of_ne (hlive hs nofun) _
  | drained _ hs => exact setState_of_ne (hlive hs nofun) _
  | drainedLater hs => exact setState_of_ne (hlive hs nofun) _
  | destroyed _ => exact h.setState_dead _
  | revoked _ => exact h.setState_dead _
  | created hcall halloc hframe =>
    apply hframe
    rintro rfl
    obtain ⟨i, hi, hfree⟩ := hfree hcall
    rw [(of_ipcAllocEndpoint halloc).2.2.2 i hi] at hfree
    cases hfree

theorem Closed.not_accepts (h : k.Closed ep) (msg : IpcMsg) (flags : UInt32)
    (hid : (k.cap (k.extIndex k.current) handle).objectId = ep) (j : ℕ) :
    ¬ k.Accepts handle msg flags j := by
  intro hacc
  obtain ⟨c, hc, -, rfl⟩ := hacc.cap
  have hopen := hacc.isOpen
  rw [(of_resolveWith hc).2.1] at hid
  rw [hid, show (k.endpoints ep).state = .dead from h.dead] at hopen
  cases hopen

theorem Closed.dequeue (h : k.Closed ep) : k.ipcMsgDequeue ep = (-1, none, k) := by
  obtain ⟨hret, hrest⟩ := ipcMsgDequeue_of_empty h.empty
  rw [if_pos (.inr h.dead)] at hret
  exact Prod.ext hret hrest

theorem Closed.sysIpcRecv (h : k.Closed ep) (flags : UInt32)
    (hid : (k.cap (k.extIndex k.current) handle).objectId = ep) :
    (k.sysIpcRecv handle flags).1 = .ret (-1) := by
  unfold Kernel.sysIpcRecv
  cases hc : k.resolveWith handle ipcCapRightRecv with
  | none => rfl
  | some c =>
    rw [(of_resolveWith hc).2.1] at hid
    dsimp only
    rw [hid, h.dequeue]
    split_ifs with htype hret
    · rfl
    · rfl
    · cases hret
    · rfl

theorem Closed.sysIpcCall (h : k.Closed ep) (req : IpcMsg)
    (hid : (k.cap (k.extIndex k.current) handle).objectId = ep) :
    (k.sysIpcCall handle req).1 = .ret (-1) := by
  have hsend := (sysIpcSend_of_not_accepts (h.not_accepts req 0 hid)).1
  unfold Kernel.sysIpcCall
  cases hc : k.resolveWith handle ipcCapRightCall with
  | none => rfl
  | some c =>
    dsimp only
    rw [hsend]
    split_ifs with htype hpeer hneg
    · rfl
    · rfl
    · rfl
    · exact absurd (by decide) hneg

end Kernel

namespace IpcEvent
variable {k : Kernel} {ep : ℕ} {e : IpcEvent}

theorem queues_step_of_closed (h : k.Closed ep) (hfree : NotReused ep k e) :
    (step k e).queues ep = k.queues ep := by
  have hstart : (e.start k).Closed ep := ⟨h.dead, h.empty⟩
  exact hstart.flow (e.call.queueFlow (e.start k)) hfree

theorem closed_step (h : k.Closed ep) (hfree : NotReused ep k e) : (step k e).Closed ep := by
  have hsame := queues_step_of_closed h hfree
  exact ⟨hsame ▸ h.dead, hsame ▸ h.empty⟩

theorem silent_of_closed (h : k.Closed ep) (hfree : NotReused ep k e) : Silent ep k e := by
  have hsame := queues_step_of_closed h hfree
  have hstart : (e.start k).Closed ep := ⟨h.dead, h.empty⟩
  constructor
  · exact congrArg QueueView.msgsSent hsame
  · exact congrArg QueueView.msgsRecv hsame
  · intro handle msg flags _ hthrough
    rw [(sysIpcSend_of_not_accepts (hstart.not_accepts msg flags hthrough.2)).1]
    decide
  · intro handle flags _ hthrough
    exact ⟨-1, by decide, hstart.sysIpcRecv flags hthrough.2⟩
  · intro _
    refine ⟨-1, by decide, ?_⟩
    unfold sysIpcRecvResume
    rw [hstart.dequeue]
    rfl
  · intro handle req _ hthrough
    exact ⟨-1, by decide, hstart.sysIpcCall req hthrough.2⟩

theorem closed_of_destroy {d : IpcEvent} {handle : ℕ}
    (hcall : d.call = .objectDestroy handle ∨ d.call = .capRevoke handle)
    (hret : ((d.start k).sysIpcObjectDestroy handle).1 = 0)
    (hlike : isEndpointLike (k.cap (k.extIndex d.task) handle))
    (hid : (k.cap (k.extIndex d.task) handle).objectId = ep)
    (hempty : (k.endpoints ep).msgCount = 0) : (step k d).Closed ep := by
  have hnames : (d.start k).Names handle ep ipcCapRightRevoke := by
    cases hc : (d.start k).resolveWith handle ipcCapRightRevoke with
    | none =>
      unfold sysIpcObjectDestroy at hret
      rw [hc] at hret
      cases hret
    | some c =>
      have hcap : k.cap (k.extIndex d.task) handle = c := (of_resolveWith hc).2.1
      exact ⟨c, hc, hcap ▸ hlike, hcap ▸ hid⟩
  have hexec : step k d = ((d.start k).sysIpcObjectDestroy handle).2 := by
    change d.call.exec (d.start k) = _
    rcases hcall with hcall | hcall <;> rw [hcall] <;> rfl
  have hview : (step k d).queues ep = (k.queues ep).withState .dead := by
    rw [hexec, hnames.destroy]
    exact update_self _ _ _
  exact ⟨hview ▸ rfl, hview ▸ hempty⟩

/-- An endpoint that was empty when it was destroyed is silent until its pool entry is reused. -/
theorem destroyed_endpoint_is_silent (k : Kernel) (d : IpcEvent) (handle ep : ℕ)
    (hcall : d.call = .objectDestroy handle ∨ d.call = .capRevoke handle)
    (hret : ((d.start k).sysIpcObjectDestroy handle).1 = 0)
    (hlike : isEndpointLike (k.cap (k.extIndex d.task) handle))
    (hid : (k.cap (k.extIndex d.task) handle).objectId = ep)
    (hempty : (k.endpoints ep).msgCount = 0) (pre : List IpcEvent) (e : IpcEvent)
    (hrun : Guarded step (NotReused ep) (step k d) (pre ++ [e])) :
    Silent ep (run step (step k d) pre) e := by
  obtain ⟨hpre, hfree, -⟩ := guarded_append.mp hrun
  have hinv : ∀ k e, (fun k : Kernel => k.Closed ep) k → NotReused ep k e →
      (fun k : Kernel => k.Closed ep) (step k e) := fun _ _ => closed_step
  apply silent_of_closed _ hfree
  exact invariant_run hinv (closed_of_destroy hcall hret hlike hid hempty) hpre

/-- The thread that boots made endpoint 0, and holds three capabilities on it. -/
def shared : Kernel :=
  (((step boot ⟨0, .endpointCreate⟩).putCap 0
    { rights := ipcCapRightRevoke, objectType := .endpoint, refCount := 1 }).putCap 1
    { rights := ipcCapRightRecv, objectType := .endpoint, refCount := 1 }).putCap 2
    { rights := ipcCapRightSend, objectType := .endpoint, refCount := 1 }

def destroy : IpcEvent := ⟨0, .objectDestroy 0⟩

def sendOne : IpcEvent := ⟨0, .send 2 { magic := ipcMsgMagic } 0⟩

theorem shared_is_silent_once_destroyed : Silent 0 (step shared destroy) sendOne :=
  destroyed_endpoint_is_silent shared destroy 0 0 (.inl rfl) (by decide +kernel)
    (by decide +kernel) (by decide +kernel) (by decide +kernel) [] sendOne ⟨nofun, trivial⟩

/-- A message that waits is still received after the destroy, and an old capability sends to the
endpoint that takes the pool entry next. -/
theorem revocation_is_not_final :
    ((destroy.start (step shared sendOne)).sysIpcObjectDestroy 0).1 = 0 ∧
      ¬ Silent 0 (run step shared [sendOne, destroy]) ⟨0, .recv 1 ipcMsgfNoblock⟩ ∧
      ((destroy.start shared).sysIpcObjectDestroy 0).1 = 0 ∧
      ¬ Silent 0 (run step shared [destroy, ⟨0, .endpointCreate⟩]) sendOne := by
  refine ⟨by decide +kernel, fun h => ?_, by decide +kernel, fun h => ?_⟩
  · exact absurd h.received (by decide +kernel)
  · exact absurd h.sent (by decide +kernel)

end IpcEvent
end SageOS
