import SageOS.EndpointStates

/-!
# What the calls do to endpoint queues

After an IPC call the queues of all endpoints are as before, or the call has sent to or received
from an endpoint, or it has moved one endpoint to another state, or it has taken a free pool entry
for a new one.
-/
namespace SageOS
open Kernel

/-- The calls that take a new endpoint from the pool. -/
def IpcCall.creates : IpcCall → Bool
  | .endpointCreate | .portAccept _ | .portAcceptResume _ => true
  | _ => false

inductive QueueFlow (k : Kernel) : IpcCall → (ℕ → QueueView) → Prop
  | same {call} : QueueFlow k call k.queues
  | sent {handle msg flags ep} (h : k.Accepts handle msg flags ep) :
      QueueFlow k (.send handle msg flags) (Function.update k.queues ep (k.queues ep).sent)
  | received {handle flags ep} (h : (k.queues ep).msgCount ≠ 0) :
      QueueFlow k (.recv handle flags) (Function.update k.queues ep (k.queues ep).received)
  | receivedLater {ep} (h : (k.queues ep).msgCount ≠ 0) :
      QueueFlow k (.recvResume ep) (Function.update k.queues ep (k.queues ep).received)
  | called {handle req ep} (h : k.CallAccepts handle req ep) :
      QueueFlow k (.call handle req) (Function.update k.queues ep (k.queues ep).sent)
  | answered {handle req ep q j} (h : k.CallAccepts handle req ep)
      (hq : q = Function.update k.queues ep (k.queues ep).sent) (hj : (q j).msgCount ≠ 0) :
      QueueFlow k (.call handle req) (Function.update q j (q j).received)
  | paused {handle ep} (h : k.Names handle ep ipcCapRightRevoke)
      (hs : (k.queues ep).state = .active) :
      QueueFlow k (.objectPause handle) (k.setState ep .paused)
  | resumed {handle ep c} (hc : k.ownTable.resolve handle = some c) (hl : isEndpointLike c)
      (hep : c.objectId = ep) (hs : (k.queues ep).state = .paused) :
      QueueFlow k (.objectResume handle) (k.setState ep .active)
  | draining {handle ep} (h : k.Names handle ep ipcCapRightRevoke)
      (hs : (k.queues ep).state = .active) :
      QueueFlow k (.objectDrain handle) (k.setState ep .draining)
  | drained {handle ep} (h : k.Names handle ep ipcCapRightRevoke)
      (hs : (k.queues ep).state = .active) (hempty : (k.queues ep).msgCount = 0) :
      QueueFlow k (.objectDrain handle) (k.setState ep .dead)
  | drainedLater {ep} (hs : (k.queues ep).state = .draining) (hempty : (k.queues ep).msgCount = 0) :
      QueueFlow k (.objectDrainResume ep) (k.setState ep .dead)
  | destroyed {handle ep} (h : k.Names handle ep ipcCapRightRevoke) :
      QueueFlow k (.objectDestroy handle) (k.setState ep .dead)
  | revoked {handle ep} (h : k.Names handle ep ipcCapRightRevoke) :
      QueueFlow k (.capRevoke handle) (k.setState ep .dead)
  | created {call k' ep q} (hcall : call.creates = true)
      (halloc : k.ipcAllocEndpoint = some (ep, k')) (hframe : ∀ j, j ≠ ep → q j = k.queues j) :
      QueueFlow k call q

namespace Kernel

theorem queueFlow_sysIpcObjectPause (k : Kernel) (handle : ℕ) :
    QueueFlow k (.objectPause handle) (k.sysIpcObjectPause handle).2.queues := by
  unfold sysIpcObjectPause
  cases hc : k.resolveWith handle ipcCapRightRevoke with
  | none => exact .same
  | some c =>
    dsimp only
    by_cases hlike : isEndpointLike c
    · rw [if_pos hlike]
      by_cases hs : (k.queues c.objectId).state = .active
      · rw [(ipcLifecycleTransition_of_active (.inl rfl) hs).2]
        exact .paused ⟨c, hc, hlike, rfl⟩ hs
      · rw [ipcLifecycleTransition_of_ne (.inl rfl) hs]
        exact .same
    · rw [if_neg hlike]
      exact .same

theorem queueFlow_sysIpcObjectDrain (k : Kernel) (handle : ℕ) :
    QueueFlow k (.objectDrain handle) (k.sysIpcObjectDrain handle).2.queues := by
  cases hc : k.resolveWith handle ipcCapRightRevoke with
  | none =>
    unfold sysIpcObjectDrain
    rw [hc]
    exact .same
  | some c =>
    by_cases hok : isEndpointLike c ∧ (k.queues c.objectId).state = .active
    · rw [sysIpcObjectDrain_of_active hc hok.1 hok.2]
      split_ifs with hempty
      · exact .drained ⟨c, hc, hok.1, rfl⟩ hok.2 hempty
      · exact .draining ⟨c, hc, hok.1, rfl⟩ hok.2
    · rw [sysIpcObjectDrain_of_ne hc (not_and.mp hok)]
      exact .same

theorem queueFlow_sysIpcObjectResume (k : Kernel) (handle : ℕ) :
    QueueFlow k (.objectResume handle) (k.sysIpcObjectResume handle).2.queues := by
  cases hc : k.ownTable.resolve handle with
  | none =>
    unfold sysIpcObjectResume
    rw [hc]
    exact .same
  | some c =>
    by_cases hok : isEndpointLike c ∧ (k.endpoints c.objectId).state = .paused
    · rw [queues_sysIpcObjectResume hc hok.1 hok.2]
      exact .resumed hc hok.1 rfl hok.2
    · unfold sysIpcObjectResume
      simp only [hc, if_neg hok]
      exact .same

theorem queueFlow_sysIpcCall (k : Kernel) (handle : ℕ) (req : IpcMsg) :
    QueueFlow k (.call handle req) (k.sysIpcCall handle req).2.queues := by
  by_cases hacc : ∃ ep, k.CallAccepts handle req ep
  · obtain ⟨ep, h⟩ := hacc
    rcases h.call rfl with hq | ⟨j, hj, hq⟩
    · rw [hq]
      exact .called h
    · rw [hq]
      exact .answered h rfl hj
  · rw [queues_sysIpcCall_of_not (not_exists.mp hacc)]
    exact .same

theorem endpoints_sysIpcEndpointCreate {k k' : Kernel} {ep j : ℕ}
    (halloc : k.ipcAllocEndpoint = some (ep, k')) (hj : j ≠ ep) :
    k.sysIpcEndpointCreate.2.endpoints j = k.endpoints j := by
  have hrings : OnlyEndpoint ep k' (k'.allocRings ep ep).2 := .allocRings k'
  rw [← (of_ipcAllocEndpoint halloc).2.1 j hj, sysIpcEndpointCreate_of_alloc halloc]
  split_ifs
  · unfold insertPair
    cases ((k'.allocRings ep ep).2.linkPair ep ep).ownTable.allocSlot with
    | none => exact hrings.then_linkPair.then_killPair.frame j hj
    | some slot => exact hrings.then_linkPair.frame j hj
  · exact hrings.frame j hj

theorem queueFlow_sysIpcEndpointCreate (k : Kernel) {call : IpcCall} (hcall : call.creates = true) :
    QueueFlow k call k.sysIpcEndpointCreate.2.queues := by
  cases halloc : k.ipcAllocEndpoint with
  | none =>
    unfold sysIpcEndpointCreate
    rw [halloc]
    exact .same
  | some r =>
    refine .created hcall halloc fun j hj => ?_
    exact congrArg IpcEndpoint.view (endpoints_sysIpcEndpointCreate halloc hj)

theorem queueFlow_portAcceptPass (k : Kernel) {call : IpcCall} (hcall : call.creates = true)
    (port : ℕ) : QueueFlow k call (k.portAcceptPass port).2.queues := by
  unfold portAcceptPass
  split_ifs
  · exact .same
  · rw [queues_congr
      ((OnlyThreads.schedBlock _).endpoints.trans (endpoints_portWaitEnqueue k port _))]
    exact .same
  · exact queueFlow_sysIpcEndpointCreate k hcall

end Kernel

theorem IpcCall.queueFlow (k : Kernel) (call : IpcCall) :
    QueueFlow k call (call.exec k).queues := by
  cases call with
  | endpointCreate => exact queueFlow_sysIpcEndpointCreate k rfl
  | send handle msg flags =>
    change QueueFlow k _ (k.sysIpcSend handle msg flags).2.queues
    by_cases h : ∃ ep, k.Accepts handle msg flags ep
    · obtain ⟨ep, h⟩ := h
      rw [h.send.2]
      exact .sent h
    · rw [(sysIpcSend_of_not_accepts (not_exists.mp h)).2]
      exact .same
  | recv handle flags =>
    change QueueFlow k _ (k.sysIpcRecv handle flags).2.queues
    rcases queues_sysIpcRecv k handle flags with hsame | ⟨ep, hpos, hq⟩
    · rw [hsame]
      exact .same
    · rw [hq]
      exact .received hpos
  | recvResume ep =>
    change QueueFlow k _ (k.ipcMsgDequeue ep).2.2.queues
    rw [queues_ipcMsgDequeue]
    split_ifs with hempty
    · exact .same
    · exact .receivedLater hempty
  | call handle req => exact queueFlow_sysIpcCall k handle req
  | portCreate backlog =>
    change QueueFlow k _ (k.sysIpcPortCreate backlog).2.queues
    unfold sysIpcPortCreate
    cases halloc : k.ipcAllocPort with
    | none => exact .same
    | some r =>
      obtain ⟨port, k₁⟩ := r
      obtain ⟨i, -, he⟩ := Option.map_eq_some_iff.mp halloc
      obtain ⟨rfl, rfl⟩ := Prod.mk.inj he
      dsimp only
      split <;> exact .same
  | portAccept handle =>
    change QueueFlow k _ (k.sysIpcPortAccept handle).2.queues
    unfold sysIpcPortAccept
    cases k.ownTable.resolve handle with
    | none => exact .same
    | some c =>
      dsimp only
      split_ifs
      · exact .same
      · exact queueFlow_portAcceptPass k rfl c.objectId
  | portAcceptResume port => exact queueFlow_portAcceptPass k rfl port
  | nsRegister name handle =>
    change QueueFlow k _ (k.sysIpcNsRegister name handle).2.queues
    unfold sysIpcNsRegister
    split_ifs
    · exact .same
    · rw [queues_congr (SameThreads.ipcNsInsert k name handle _).2]
      exact .same
  | nsLookup name =>
    change QueueFlow k _ (k.sysIpcNsLookup name).2.queues
    unfold sysIpcNsLookup
    cases k.ipcNsFind name with
    | none => exact .same
    | some i =>
      cases k.ownTable.allocSlot with
      | none => exact .same
      | some slot =>
        dsimp only
        cases k.schedGetThreadById (k.nsEntries i).ownerTaskId <;> exact .same
  | objectDestroy handle =>
    change QueueFlow k _ (k.sysIpcObjectDestroy handle).2.queues
    rcases sysIpcObjectDestroy_cases k handle with hsame | ⟨ep, hep⟩
    · rw [hsame]
      exact .same
    · rw [hep.destroy]
      exact .destroyed hep
  | objectPause handle => exact queueFlow_sysIpcObjectPause k handle
  | objectResume handle => exact queueFlow_sysIpcObjectResume k handle
  | objectDrain handle => exact queueFlow_sysIpcObjectDrain k handle
  | objectDrainResume ep =>
    change QueueFlow k _ (k.drainPass ep).2.queues
    rw [queues_drainPass]
    split_ifs with h
    · exact .drainedLater h.2 h.1
    · exact .same
  | capNarrow handle newRights =>
    change QueueFlow k _ (k.sysIpcCapNarrow handle newRights).2.queues
    unfold sysIpcCapNarrow
    cases k.ownTable.resolve handle with
    | none => exact .same
    | some c =>
      dsimp only
      split_ifs <;> exact .same
  | capRevoke handle =>
    change QueueFlow k _ (k.sysIpcObjectDestroy handle).2.queues
    rcases sysIpcObjectDestroy_cases k handle with hsame | ⟨ep, hep⟩
    · rw [hsame]
      exact .same
    · rw [hep.destroy]
      exact .revoked hep
  | capDup handle =>
    change QueueFlow k _ (k.sysIpcCapDup handle).2.queues
    unfold sysIpcCapDup
    cases k.resolveWith handle ipcCapRightDup with
    | none => exact .same
    | some c =>
      cases k.ownTable.allocSlot <;> exact .same

end SageOS
