import SageOS.IpcFrame

/-!
# What an IPC call can change

Every IPC call of a live thread keeps all threads and ids and writes only the capability table of
the thread itself; only a registration writes the name space, and of the suspended threads a call
wakes at most one at the head of a wait queue. The calls are collected in one type, with the
continuations of those that wait.
-/
namespace SageOS
namespace Kernel

structure IpcEffect (wakes : ℕ → Prop) (k k' : Kernel) : Prop where
  own : (k.tasks k.current).state ≠ .unused → OwnTableOnly k k'
  suspended : ∀ p, ¬ wakes p → k.Suspended p → k'.Suspended p
  names : k'.names = k.names

variable {k k' k'' : Kernel} {w : ℕ → Prop}

theorem Inert.effect (h : Inert k k') : IpcEffect w k k' :=
  ⟨fun _ => h.ownTableOnly, fun _ _ hs => hs.congr h.tasks h.current, h.names⟩

namespace IpcEffect

theorem refl (k : Kernel) : IpcEffect w k k := (Inert.refl k).effect

theorem trans (h : IpcEffect w k k') (hc : k'.current = k.current) (h' : IpcEffect w k' k'') :
    IpcEffect w k k'' where
  own hlive := by
    refine (h.own hlive).trans hc (h'.own ?_)
    rw [hc]
    exact ((h.own hlive).unused _).not.mpr hlive
  suspended p hp hs := h'.suspended p hp (h.suspended p hp hs)
  names := h'.names.trans h.names

theorem after (h : Inert k k') (h' : IpcEffect w k' k'') : IpcEffect w k k'' :=
  h.effect.trans h.current h'

theorem setOwnTable (k : Kernel) (tab : CapTable) : IpcEffect w k (k.setOwnTable tab) :=
  ⟨fun _ => .setOwnTable k tab, fun _ _ hs => hs.congr rfl rfl, rfl⟩

theorem putCap (k : Kernel) (slot : ℕ) (cap : IpcCapability) : IpcEffect w k (k.putCap slot cap) :=
  setOwnTable k _

theorem schedSchedule (k : Kernel) : IpcEffect w k k.schedSchedule :=
  ⟨fun _ => .schedSchedule k, fun _ _ hs => hs.schedSchedule, (OnlyThreads.schedSchedule k).names⟩

theorem wait (tail : Option ℕ) (h : Inert (k.linkWaiter tail k.current) k') :
    IpcEffect w k k'.schedBlock where
  own hlive := by
    obtain ⟨hown, hcur⟩ := OwnTableOnly.linkWaiter tail hlive
    have hown' := hown.trans hcur h.ownTableOnly
    have hcur' := h.current.trans hcur
    refine hown'.trans hcur' (.schedBlock ?_)
    rw [hcur']
    exact (hown'.unused k.current).not.mpr hlive
  suspended p _ hs := ((hs.linkWaiter tail hs.2).congr h.tasks h.current).schedBlock
  names := (OnlyThreads.schedBlock k').names.trans
    (h.names.trans (OnlyThreads.linkWaiter k tail k.current).names)

theorem ipcWaitEnqueue (k : Kernel) (ep : ℕ) :
    IpcEffect w k (k.ipcWaitEnqueue ep k.current).schedBlock := by
  unfold Kernel.ipcWaitEnqueue
  dsimp only
  split_ifs <;> exact wait _ ⟨⟨rfl, rfl, rfl, rfl⟩, rfl⟩

theorem portWaitEnqueue (k : Kernel) (port : ℕ) :
    IpcEffect w k (k.portWaitEnqueue port k.current).schedBlock := by
  unfold Kernel.portWaitEnqueue
  dsimp only
  split_ifs <;> exact wait _ ⟨⟨rfl, rfl, rfl, rfl⟩, rfl⟩

theorem current_schedUnblock (k : Kernel) (i : ℕ) : (k.schedUnblock i).current = k.current := by
  unfold Kernel.schedUnblock
  split_ifs <;> rfl

theorem ipcWakeOne {ep : ℕ} (hw : ∀ p, (k.endpoints ep).waitHead = some p → w p) :
    IpcEffect w k (k.ipcWakeOne ep) ∧ (k.ipcWakeOne ep).current = k.current := by
  unfold Kernel.ipcWakeOne
  cases hhead : (k.endpoints ep).waitHead with
  | none => exact ⟨refl k, rfl⟩
  | some i =>
    refine ⟨after (.modifyEndpoint k ep _) ⟨fun _ => .schedUnblock _ i, fun p hp hs => ?_,
      (OnlyThreads.schedUnblock _ i).names⟩, current_schedUnblock _ i⟩
    refine hs.schedUnblock fun hip => hp (hw p ?_)
    rw [hhead, hip]

theorem ipcMsgEnqueue {ep : ℕ} (hw : ∀ p, (k.endpoints ep).waitHead = some p → w p)
    (msg : IpcMsg) : IpcEffect w k (k.ipcMsgEnqueue ep msg).2 ∧
      (k.ipcMsgEnqueue ep msg).2.current = k.current := by
  unfold Kernel.ipcMsgEnqueue
  dsimp only
  split_ifs
  · exact ⟨refl k, rfl⟩
  · exact ⟨Inert.effect ⟨⟨rfl, rfl, rfl, rfl⟩, rfl⟩, rfl⟩
  · have hwake : ∀ k₁, Inert k k₁ → (k₁.endpoints ep).waitHead = (k.endpoints ep).waitHead →
        IpcEffect w k (k₁.ipcWakeOne ep) ∧ (k₁.ipcWakeOne ep).current = k.current := by
      intro k₁ hin hhead
      obtain ⟨heff, hcur⟩ := ipcWakeOne (hhead ▸ hw)
      exact ⟨after hin heff, hcur.trans hin.current⟩
    exact hwake _ ⟨⟨rfl, rfl, rfl, rfl⟩, rfl⟩ (by simp [Kernel.setEndpoint])

theorem translateCaps (transfer : Bool) (handles : List ℕ) (k : Kernel) :
    IpcEffect w k (translateCaps transfer k handles).2 ∧
      (Kernel.translateCaps transfer k handles).2.current = k.current := by
  induction handles generalizing k with
  | nil => exact ⟨refl k, rfl⟩
  | cons h rest ih =>
    unfold Kernel.translateCaps
    split_ifs
    · exact ⟨refl k, rfl⟩
    · obtain ⟨heff, hcur⟩ := ih (k.setOwnTable (k.ownTable.freeSlot h))
      exact ⟨(setOwnTable k _).trans rfl heff, hcur⟩
    · exact ih k

theorem sysIpcSend (hw : ∀ ep p, (k.endpoints ep).waitHead = some p → w p) (handle : ℕ)
    (msg : IpcMsg) (flags : UInt32) : IpcEffect w k (k.sysIpcSend handle msg flags).2 ∧
      (k.sysIpcSend handle msg flags).2.current = k.current := by
  unfold Kernel.sysIpcSend
  cases k.resolveWith handle ipcCapRightSend with
  | none => exact ⟨refl k, rfl⟩
  | some cap =>
    dsimp only
    have hends := endpoints_translateCaps (decide (flags &&& ipcMsgfCapTransfer ≠ 0))
      ((List.range msg.capCount).map msg.caps) k
    obtain ⟨heff, hcur⟩ := translateCaps (w := w)
      (decide (flags &&& ipcMsgfCapTransfer ≠ 0)) ((List.range msg.capCount).map msg.caps) k
    split_ifs
    · exact ⟨refl k, rfl⟩
    · exact ⟨refl k, rfl⟩
    · obtain ⟨henq, hcur'⟩ := ipcMsgEnqueue (fun p => hends ▸ hw cap.objectId p)
        { msg with senderTask := (k.tasks k.current).id, senderCap := handle }
      exact ⟨heff.trans hcur henq, hcur'.trans hcur⟩
    · exact ⟨heff, hcur⟩
    · exact ⟨refl k, rfl⟩

theorem sysIpcRecv (k : Kernel) (handle : ℕ) (flags : UInt32) :
    IpcEffect w k (k.sysIpcRecv handle flags).2 := by
  unfold Kernel.sysIpcRecv
  cases k.resolveWith handle ipcCapRightRecv with
  | none => exact refl k
  | some cap =>
    have hdeq := Inert.ipcMsgDequeue k cap.objectId
    dsimp only
    split_ifs
    · exact refl k
    · exact hdeq.effect
    · rw [← hdeq.current]
      exact after hdeq (ipcWaitEnqueue _ _)
    · exact hdeq.effect

theorem sysIpcCall (hw : ∀ ep p, (k.endpoints ep).waitHead = some p → w p) (handle : ℕ)
    (req : IpcMsg) : IpcEffect w k (k.sysIpcCall handle req).2 := by
  obtain ⟨hsend, hcur⟩ := sysIpcSend hw handle req 0
  unfold Kernel.sysIpcCall
  cases k.resolveWith handle ipcCapRightCall with
  | none => exact refl k
  | some cap =>
    dsimp only
    split_ifs
    · exact refl k
    · exact refl k
    · exact hsend
    · cases (k.sysIpcSend handle req 0).2.replyCap _ with
      | none => exact hsend
      | some reply => exact hsend.trans hcur (sysIpcRecv _ reply 0)

theorem sysIpcEndpointCreate (k : Kernel) : IpcEffect w k k.sysIpcEndpointCreate.2 := by
  have hinsert : ∀ (k : Kernel) (send recv : ℕ), IpcEffect w k (k.insertPair send recv).2 := by
    intro k send recv
    unfold Kernel.insertPair
    cases k.ownTable.allocSlot with
    | none => exact (Inert.killPair k send recv).effect
    | some slot => exact (putCap k slot _).trans rfl (putCap _ slot _)
  unfold Kernel.sysIpcEndpointCreate
  cases h₁ : k.ipcAllocEndpoint with
  | none => exact refl k
  | some r₁ =>
    obtain ⟨send, k₁⟩ := r₁
    have hs₁ := Inert.ipcAllocEndpoint h₁
    dsimp only
    cases h₂ : k₁.ipcAllocEndpoint with
    | none =>
      have hdead := hs₁.trans (.modifyEndpoint k₁ send fun e => { e with state := .dead })
      exact hdead.effect
    | some r₂ =>
      obtain ⟨recv, k₂⟩ := r₂
      have hs₂ := (hs₁.trans (.ipcAllocEndpoint h₂)).trans (.allocRings k₂ send recv)
      dsimp only
      split_ifs
      · exact after (hs₂.trans (.linkPair _ send recv)) (hinsert _ send recv)
      · exact hs₂.effect

theorem sysIpcPortCreate (k : Kernel) (backlog : ℕ) :
    IpcEffect w k (k.sysIpcPortCreate backlog).2 := by
  unfold Kernel.sysIpcPortCreate
  cases h : k.ipcAllocPort with
  | none => exact refl k
  | some r =>
    obtain ⟨port, k₁⟩ := r
    have hs := Inert.ipcAllocPort h
    have hset (p : IpcPort) : Inert k (k₁.setPort port p) := hs.trans ⟨⟨rfl, rfl, rfl, rfl⟩, rfl⟩
    dsimp only
    split
    · exact Inert.effect ⟨⟨hs.tasks, hs.current, hs.nextPid, hs.ipcExt⟩, hs.names⟩
    · exact after (hset _) (putCap _ _ _)

theorem portAcceptPass (k : Kernel) (port : ℕ) : IpcEffect w k (k.portAcceptPass port).2 := by
  unfold Kernel.portAcceptPass
  split_ifs
  · exact refl k
  · exact portWaitEnqueue k port
  · exact sysIpcEndpointCreate k

theorem sysIpcNsLookup (k : Kernel) (name : Bytes) : IpcEffect w k (k.sysIpcNsLookup name).2 := by
  unfold Kernel.sysIpcNsLookup
  cases k.ipcNsFind name with
  | none => exact refl k
  | some i =>
    cases k.ownTable.allocSlot with
    | none => exact refl k
    | some slot =>
      dsimp only
      cases k.schedGetThreadById (k.nsEntries i).ownerTaskId with
      | none => exact refl k
      | some owner => exact putCap k slot _

theorem sysIpcObjectDestroy (k : Kernel) (handle : ℕ) :
    IpcEffect w k (k.sysIpcObjectDestroy handle).2 := by
  unfold Kernel.sysIpcObjectDestroy
  cases k.resolveWith handle ipcCapRightRevoke with
  | none => exact refl k
  | some cap => exact after (.destroyObject k cap) (setOwnTable _ _)

theorem drainPass (k : Kernel) (ep : ℕ) : IpcEffect w k (k.drainPass ep).2 := by
  unfold Kernel.drainPass
  by_cases hempty : (k.endpoints ep).msgCount = 0
  · rw [if_pos hempty]
    dsimp only
    split_ifs
    · exact (Inert.modifyEndpoint k ep _).effect
    · exact refl k
  · rw [if_neg hempty]
    exact schedSchedule k

end IpcEffect
end Kernel

/-- The IPC calls and the continuations of those that wait. -/
inductive IpcCall
  | endpointCreate
  | send (handle : ℕ) (msg : IpcMsg) (flags : UInt32)
  | recv (handle : ℕ) (flags : UInt32)
  | recvResume (ep : ℕ)
  | call (handle : ℕ) (req : IpcMsg)
  | portCreate (backlog : ℕ)
  | portAccept (handle : ℕ)
  | portAcceptResume (port : ℕ)
  | nsRegister (name : Bytes) (handle : ℕ)
  | nsLookup (name : Bytes)
  | objectDestroy (handle : ℕ)
  | objectPause (handle : ℕ)
  | objectResume (handle : ℕ)
  | objectDrain (handle : ℕ)
  | objectDrainResume (ep : ℕ)
  | capNarrow (handle : ℕ) (newRights : UInt32)
  | capRevoke (handle : ℕ)
  | capDup (handle : ℕ)

def IpcCall.exec (k : Kernel) : IpcCall → Kernel
  | .endpointCreate => k.sysIpcEndpointCreate.2
  | .send handle msg flags => (k.sysIpcSend handle msg flags).2
  | .recv handle flags => (k.sysIpcRecv handle flags).2
  | .recvResume ep => (k.sysIpcRecvResume ep).2
  | .call handle req => (k.sysIpcCall handle req).2
  | .portCreate backlog => (k.sysIpcPortCreate backlog).2
  | .portAccept handle => (k.sysIpcPortAccept handle).2
  | .portAcceptResume port => (k.portAcceptPass port).2
  | .nsRegister name handle => (k.sysIpcNsRegister name handle).2
  | .nsLookup name => (k.sysIpcNsLookup name).2
  | .objectDestroy handle => (k.sysIpcObjectDestroy handle).2
  | .objectPause handle => (k.sysIpcObjectPause handle).2
  | .objectResume handle => (k.sysIpcObjectResume handle).2
  | .objectDrain handle => (k.sysIpcObjectDrain handle).2
  | .objectDrainResume ep => (k.drainPass ep).2
  | .capNarrow handle newRights => (k.sysIpcCapNarrow handle newRights).2
  | .capRevoke handle => (k.sysIpcCapRevoke handle).2
  | .capDup handle => (k.sysIpcCapDup handle).2

namespace IpcCall
open Kernel IpcEffect

theorem effect (k : Kernel) {c : IpcCall} (hc : ∀ name handle, c ≠ .nsRegister name handle) :
    IpcEffect (fun p => ∃ ep, (k.endpoints ep).waitHead = some p) k (c.exec k) := by
  cases c with
  | endpointCreate => exact sysIpcEndpointCreate k
  | send handle msg flags => exact (sysIpcSend (fun ep _ hp => ⟨ep, hp⟩) handle msg flags).1
  | recv handle flags => exact sysIpcRecv k handle flags
  | recvResume ep => exact (Inert.ipcMsgDequeue k ep).effect
  | call handle req => exact sysIpcCall (fun ep _ hp => ⟨ep, hp⟩) handle req
  | portCreate backlog => exact sysIpcPortCreate k backlog
  | portAccept handle =>
    change IpcEffect _ k (k.sysIpcPortAccept handle).2
    unfold sysIpcPortAccept
    cases k.ownTable.resolve handle with
    | none => exact refl k
    | some cap =>
      dsimp only
      split_ifs
      · exact refl k
      · exact portAcceptPass k cap.objectId
  | portAcceptResume port => exact portAcceptPass k port
  | nsRegister name handle => exact absurd rfl (hc name handle)
  | nsLookup name => exact sysIpcNsLookup k name
  | objectDestroy handle | capRevoke handle => exact sysIpcObjectDestroy k handle
  | objectPause handle =>
    change IpcEffect _ k (k.sysIpcObjectPause handle).2
    unfold sysIpcObjectPause
    cases k.resolveWith handle ipcCapRightRevoke with
    | none => exact refl k
    | some cap =>
      dsimp only
      split_ifs
      all_goals first
        | exact (Inert.ipcLifecycleTransition k cap.objectId .paused).effect
        | exact refl k
  | objectResume handle =>
    change IpcEffect _ k (k.sysIpcObjectResume handle).2
    unfold sysIpcObjectResume
    cases k.ownTable.resolve handle with
    | none => exact refl k
    | some cap =>
      dsimp only
      split_ifs
      · exact Inert.effect ⟨⟨rfl, rfl, rfl, rfl⟩, rfl⟩
      · exact refl k
  | objectDrain handle =>
    change IpcEffect _ k (k.sysIpcObjectDrain handle).2
    unfold sysIpcObjectDrain
    cases k.resolveWith handle ipcCapRightRevoke with
    | none => exact refl k
    | some cap =>
      have htr := Inert.ipcLifecycleTransition k cap.objectId .draining
      dsimp only
      split_ifs
      · exact after htr (drainPass _ cap.objectId)
      · exact htr.effect
      · exact refl k
  | objectDrainResume ep => exact drainPass k ep
  | capNarrow handle newRights =>
    change IpcEffect _ k (k.sysIpcCapNarrow handle newRights).2
    unfold sysIpcCapNarrow
    cases k.ownTable.resolve handle with
    | none => exact refl k
    | some cap =>
      dsimp only
      split_ifs
      · exact refl k
      · exact putCap k handle _
  | capDup handle =>
    change IpcEffect _ k (k.sysIpcCapDup handle).2
    unfold sysIpcCapDup
    cases k.resolveWith handle ipcCapRightDup with
    | none => exact refl k
    | some src =>
      dsimp only
      cases k.ownTable.allocSlot with
      | none => exact refl k
      | some slot => exact putCap k slot _

theorem nsRegister_sameThreads (k : Kernel) (name : Bytes) (handle : ℕ) :
    SameThreads k (exec k (.nsRegister name handle)) := by
  change SameThreads k (k.sysIpcNsRegister name handle).2
  unfold sysIpcNsRegister
  split_ifs
  · exact .refl k
  · exact (SameThreads.ipcNsInsert k name handle _).1

theorem exec_ownTableOnly (k : Kernel) (hlive : (k.tasks k.current).state ≠ .unused)
    (c : IpcCall) : OwnTableOnly k (c.exec k) := by
  by_cases hc : ∃ name handle, c = .nsRegister name handle
  · obtain ⟨name, handle, rfl⟩ := hc
    exact (nsRegister_sameThreads k name handle).ownTableOnly
  · exact (effect k fun name handle he => hc ⟨name, handle, he⟩).own hlive

theorem exec_suspended {k : Kernel} {p : ℕ} (h : k.Suspended p)
    (hw : ∀ ep, (k.endpoints ep).waitHead ≠ some p) (c : IpcCall) : (c.exec k).Suspended p := by
  by_cases hc : ∃ name handle, c = .nsRegister name handle
  · obtain ⟨name, handle, rfl⟩ := hc
    have hsame := nsRegister_sameThreads k name handle
    exact h.congr hsame.tasks hsame.current
  · exact (effect k fun name handle he => hc ⟨name, handle, he⟩).suspended p
      (fun ⟨ep, hp⟩ => hw ep hp) h

end IpcCall
end SageOS
