import SageOS.IpcTables

/-!
# Endpoint queues

What lifecycle and delivery depend on is a view of the endpoint: its state, the number of messages
that wait in it, and how many were sent and received so far. Waiting and scheduling do not change
the view. A send adds one message to one endpoint exactly when it is accepted, a receive takes one
out exactly when there is one.
-/
namespace SageOS
open Function Option CapTable

structure QueueView where
  state : IpcLifecycleState
  msgCount : ℕ
  msgsSent : ℕ
  msgsRecv : ℕ

namespace QueueView

def sent (v : QueueView) : QueueView :=
  { v with msgCount := v.msgCount + 1, msgsSent := v.msgsSent + 1 }

def received (v : QueueView) : QueueView :=
  { v with msgCount := v.msgCount - 1, msgsRecv := v.msgsRecv + 1 }

def withState (v : QueueView) (s : IpcLifecycleState) : QueueView := { v with state := s }

end QueueView

def IpcEndpoint.view (e : IpcEndpoint) : QueueView := ⟨e.state, e.msgCount, e.msgsSent, e.msgsRecv⟩

namespace Kernel

def queues (k : Kernel) : ℕ → QueueView := fun j => (k.endpoints j).view

variable {k : Kernel} {ep : ℕ}

theorem queues_congr {k' : Kernel} (h : k'.endpoints = k.endpoints) : k'.queues = k.queues := by
  unfold queues
  rw [h]

theorem queues_setEndpoint (k : Kernel) (ep : ℕ) (e : IpcEndpoint) :
    (k.setEndpoint ep e).queues = update k.queues ep e.view := by
  funext j
  change (update k.endpoints ep e j).view = _
  rw [update_apply, update_apply]
  split_ifs <;> rfl

theorem queues_setEndpoint_of_view {e : IpcEndpoint} (h : e.view = (k.endpoints ep).view) :
    (k.setEndpoint ep e).queues = k.queues := by
  rw [queues_setEndpoint, h]
  exact update_eq_self ep k.queues

theorem queues_withState (k : Kernel) (ep : ℕ) (s : IpcLifecycleState) :
    (k.modifyEndpoint ep fun e => { e with state := s }).queues =
      update k.queues ep ((k.queues ep).withState s) := by
  unfold modifyEndpoint
  rw [queues_setEndpoint]
  rfl

theorem endpoints_portWaitEnqueue (k : Kernel) (port t : ℕ) :
    (k.portWaitEnqueue port t).endpoints = k.endpoints := by
  unfold portWaitEnqueue
  dsimp only
  split_ifs <;> exact (OnlyThreads.linkWaiter k _ t).endpoints

theorem queues_ipcWaitEnqueue (k : Kernel) (ep t : ℕ) :
    (k.ipcWaitEnqueue ep t).queues = k.queues := by
  unfold ipcWaitEnqueue
  dsimp only
  split_ifs
  all_goals
    rw [queues_setEndpoint, queues_congr (OnlyThreads.linkWaiter k _ t).endpoints]
    exact update_eq_self ep k.queues

theorem queues_ipcWakeOne (k : Kernel) (ep : ℕ) : (k.ipcWakeOne ep).queues = k.queues := by
  unfold ipcWakeOne
  cases (k.endpoints ep).waitHead with
  | none => rfl
  | some w =>
    rw [queues_congr (OnlyThreads.schedUnblock _ w).endpoints]
    apply queues_setEndpoint_of_view
    rfl

theorem ipcMsgEnqueue_spec (k : Kernel) (ep : ℕ) (msg : IpcMsg) :
    ((k.ipcMsgEnqueue ep msg).1, (k.ipcMsgEnqueue ep msg).2.queues) =
      if (k.endpoints ep).state.isOpen ∧ (k.endpoints ep).msgCount < (k.endpoints ep).ringSize
      then (0, update k.queues ep (k.queues ep).sent) else (-1, k.queues) := by
  unfold ipcMsgEnqueue
  by_cases hopen : (k.endpoints ep).state.isOpen = false
  · rw [if_pos hopen, if_neg (by simp [hopen])]
  · rw [if_neg hopen]
    by_cases hfull : (k.endpoints ep).ringSize ≤ (k.endpoints ep).msgCount
    · rw [if_pos hfull, if_neg (by omega), queues_setEndpoint_of_view]
      rfl
    · rw [if_neg hfull, if_pos ⟨Bool.not_eq_false _ ▸ hopen, by omega⟩, queues_ipcWakeOne,
        queues_setEndpoint]
      rfl

theorem ipcMsgEnqueue_fst (k : Kernel) (ep : ℕ) (msg : IpcMsg) : (k.ipcMsgEnqueue ep msg).1 =
      if (k.endpoints ep).state.isOpen ∧ (k.endpoints ep).msgCount < (k.endpoints ep).ringSize
      then 0 else -1 :=
  (congrArg Prod.fst (ipcMsgEnqueue_spec k ep msg)).trans (apply_ite Prod.fst _ _ _)

theorem queues_ipcMsgDequeue (k : Kernel) (ep : ℕ) :
    (k.ipcMsgDequeue ep).2.2.queues = if (k.queues ep).msgCount = 0 then k.queues
      else update k.queues ep (k.queues ep).received := by
  unfold ipcMsgDequeue
  change _ = if (k.endpoints ep).msgCount = 0 then k.queues else _
  by_cases hempty : (k.endpoints ep).msgCount = 0
  · rw [if_pos hempty, if_pos hempty]
  · rw [if_neg hempty, if_neg hempty]
    exact queues_setEndpoint k ep _

theorem ipcMsgDequeue_of_empty (h : (k.queues ep).msgCount = 0) : (k.ipcMsgDequeue ep).1 =
      (if (k.queues ep).state = .draining ∨ (k.queues ep).state = .dead then -1 else -2) ∧
      (k.ipcMsgDequeue ep).2 = (none, k) := by
  have hempty : (k.endpoints ep).msgCount = 0 := h
  unfold ipcMsgDequeue
  rw [if_pos hempty]
  exact ⟨rfl, rfl⟩

theorem resolve_freeSlot (tab : CapTable) {h j : ℕ} (hj : (tab.resolve j).isSome) :
    ((tab.freeSlot j).resolve h).isSome ↔ h ≠ j ∧ (tab.resolve h).isSome := by
  have hlt : j < ipcCapMaxPerTask := by
    obtain ⟨c, hc⟩ := isSome_iff_exists.mp hj
    exact ((resolve_eq_some_iff _).mp hc).1
  simp only [isSome_iff_exists, resolve_eq_some_iff]
  unfold freeSlot
  rw [if_neg (by omega)]
  by_cases hh : h = j
  · subst hh
    simp [IpcCapability.isValid]
  · rw [set_caps_of_ne _ hh]
    simp [hh]

theorem translateCaps_fst (transfer : Bool) (handles : List ℕ) (k : Kernel) :
    (translateCaps transfer k handles).1 = true ↔
      (∀ h ∈ handles, (k.ownTable.resolve h).isSome) ∧ (transfer = true → handles.Nodup) := by
  induction handles generalizing k with
  | nil => simp [translateCaps]
  | cons j rest ih =>
    unfold translateCaps
    by_cases hj : (k.ownTable.resolve j).isSome
    · rw [if_neg (by simp [isSome_iff_ne_none.mp hj])]
      cases transfer with
      | false => simp [ih, hj]
      | true =>
        rw [if_pos rfl, ih]
        have htable : (k.setOwnTable (k.ownTable.freeSlot j)).ownTable =
            k.ownTable.freeSlot j := setCapTable_capTable_self k k.current _
        simp only [htable, resolve_freeSlot _ hj, List.mem_cons, List.nodup_cons, forall_eq_or_imp]
        constructor
        · intro ⟨hall, hnodup⟩
          exact ⟨⟨hj, fun h hh => (hall h hh).2⟩,
            fun _ => ⟨fun hmem => (hall j hmem).1 rfl, hnodup trivial⟩⟩
        · intro ⟨⟨_, hall⟩, hnodup⟩
          exact ⟨fun h hh => ⟨fun heq => (hnodup trivial).1 (heq ▸ hh), hall h hh⟩,
            fun _ => (hnodup trivial).2⟩
    · rw [if_pos (by simpa using hj)]
      simp [hj]

/-- The handles embedded in a message resolve, and none is given away twice. -/
def Translates (k : Kernel) (msg : IpcMsg) (flags : UInt32) : Prop :=
  (∀ i < msg.capCount, (k.ownTable.resolve (msg.caps i)).isSome) ∧
    (flags &&& ipcMsgfCapTransfer ≠ 0 → ((List.range msg.capCount).map msg.caps).Nodup)

/-- A send through the handle adds its message to the queue of `ep`. -/
structure Accepts (k : Kernel) (handle : ℕ) (msg : IpcMsg) (flags : UInt32) (ep : ℕ) : Prop where
  cap : ∃ c, k.resolveWith handle ipcCapRightSend = some c ∧ c.objectType = .endpoint ∧
    c.objectId = ep
  isOpen : (k.endpoints ep).state.isOpen
  wellFormed : IpcMsg.wellFormed msg
  translates : k.Translates msg flags
  room : (k.endpoints ep).msgCount < (k.endpoints ep).ringSize

theorem translateCaps_iff (k : Kernel) (msg : IpcMsg) (flags : UInt32) :
    (translateCaps (flags &&& ipcMsgfCapTransfer ≠ 0) k
      ((List.range msg.capCount).map msg.caps)).1 = true ↔ k.Translates msg flags := by
  rw [translateCaps_fst]
  simp [Translates]

theorem Accepts.send {handle : ℕ} {msg : IpcMsg} {flags : UInt32}
    (h : k.Accepts handle msg flags ep) :
    (k.sysIpcSend handle msg flags).1 = 0 ∧ (k.sysIpcSend handle msg flags).2.queues =
      update k.queues ep (k.queues ep).sent := by
  obtain ⟨⟨c, hc, htype, rfl⟩, hopen, hwf, htr, hroom⟩ := h
  have hep := endpoints_translateCaps (decide (flags &&& ipcMsgfCapTransfer ≠ 0))
    ((List.range msg.capCount).map msg.caps) k
  unfold sysIpcSend
  simp only [hc]
  rw [if_neg (by simp [htype]), if_neg (by simp [hopen]), if_neg (by simp [hwf]),
    if_pos ((translateCaps_iff k msg flags).mpr htr)]
  exact Prod.mk.inj ((ipcMsgEnqueue_spec _ _ _).trans
    (by rw [hep, if_pos ⟨hopen, hroom⟩, queues_congr hep]))

theorem sysIpcSend_of_not_accepts {handle : ℕ} {msg : IpcMsg} {flags : UInt32}
    (h : ∀ ep, ¬ k.Accepts handle msg flags ep) :
    (k.sysIpcSend handle msg flags).1 = -1 ∧
      (k.sysIpcSend handle msg flags).2.queues = k.queues := by
  have hep := endpoints_translateCaps (decide (flags &&& ipcMsgfCapTransfer ≠ 0))
    ((List.range msg.capCount).map msg.caps) k
  unfold sysIpcSend
  cases hc : k.resolveWith handle ipcCapRightSend with
  | none => exact ⟨rfl, rfl⟩
  | some c =>
    dsimp only
    split_ifs with htype hopen hwf htr
    · exact ⟨rfl, rfl⟩
    · exact ⟨rfl, rfl⟩
    · have hfull : ¬ ((k.endpoints c.objectId).state.isOpen ∧
          (k.endpoints c.objectId).msgCount < (k.endpoints c.objectId).ringSize) := by
        intro hok
        exact h c.objectId ⟨⟨c, hc, by simpa using htype, rfl⟩, hok.1, hwf,
          (translateCaps_iff k msg flags).mp htr, hok.2⟩
      exact Prod.mk.inj ((ipcMsgEnqueue_spec _ _ _).trans
        (by rw [hep, if_neg hfull, queues_congr hep]))
    · exact ⟨rfl, queues_congr hep⟩
    · exact ⟨rfl, rfl⟩

end Kernel
end SageOS
