import SageOS.IpcTables

/-!
# What the calls do to capability slots

After an IPC call every slot of every table holds what it held, or it is a slot of the caller: one
that the call frees or narrows, or a free one that the call fills with a duplicate, with a copy of
the slot a name leads to, or with a capability for an object that the call creates.
-/
namespace SageOS
open Kernel

/-- The handles whose slots a call may free. -/
def IpcCall.frees : IpcCall → List ℕ
  | .send _ msg flags =>
    if flags &&& ipcMsgfCapTransfer ≠ 0 then (List.range msg.capCount).map msg.caps else []
  | .objectDestroy handle | .capRevoke handle => [handle]
  | _ => []

/-- The capability that a call stores for the object it creates. -/
def IpcCall.created (k : Kernel) : IpcCall → Option IpcCapability
  | .endpointCreate | .portAccept _ | .portAcceptResume _ =>
    k.ipcAllocEndpoint.map fun r => k.endpointCap (ipcCapRightRecv ||| ipcCapRightDup) r.1
  | .portCreate _ => k.ipcAllocPort.map fun r =>
    { rights := ipcCapRightSend ||| ipcCapRightRecv ||| ipcCapRightDup
      objectType := .port
      objectId := r.1
      refCount := 1
      ownerTask := (k.tasks k.current).id }
  | _ => none

/-- What slot `h` of table `x` can hold after a call in state `k`. -/
inductive CapFlow (k : Kernel) (call : IpcCall) (x h : ℕ) : IpcCapability → Prop
  | kept : CapFlow k call x h (k.cap x h)
  | freed (hx : x = k.extIndex k.current) (hh : h ∈ call.frees) : CapFlow k call x h {}
  | narrowed (hx : x = k.extIndex k.current) (r : UInt32) (hcall : call = .capNarrow h r) :
      CapFlow k call x h
        { k.cap x h with rights := (k.cap x h).rights &&& (r &&& ipcCapRightsAll) }
  | dup (hx : x = k.extIndex k.current) (hfree : (k.cap x h).objectType = .none) (j : ℕ)
      (hcall : call = .capDup j) (hj : j < ipcCapMaxPerTask) (hvalid : (k.cap x j).isValid) :
      CapFlow k call x h { k.cap x j with refCount := (k.cap x j).refCount + 1 }
  | lookup (hx : x = k.extIndex k.current) (hfree : (k.cap x h).objectType = .none)
      (name : Bytes) (i owner : ℕ) (hcall : call = .nsLookup name)
      (hfind : k.ipcNsFind name = some i)
      (howner : k.schedGetThreadById (k.nsEntries i).ownerTaskId = some owner)
      (src : IpcCapability) (hsrc : src = k.cap (k.extIndex owner) (k.nsEntries i).capHandle) :
      CapFlow k call x h
        { src with
          rights := src.rights &&& ~~~(ipcCapRightRevoke ||| ipcCapRightDup)
          refCount := src.refCount + 1
          ownerTask := (k.tasks k.current).id }
  | created (hx : x = k.extIndex k.current) (hfree : (k.cap x h).objectType = .none)
      (c : IpcCapability) (hcall : call.created k = some c) : CapFlow k call x h c

namespace CapFlow
variable {k k' : Kernel} {call : IpcCall} {x h slot : ℕ} {c : IpcCapability}

theorem of_ipcExt (he : k'.ipcExt = k.ipcExt) : CapFlow k call x h (k'.cap x h) := by
  rw [cap_congr he]
  exact .kept

theorem of_putCap (hput : CapFlow k call (k.extIndex k.current) slot c) :
    CapFlow k call x h ((k.putCap slot c).cap x h) := by
  rw [cap_putCap]
  split_ifs with hslot
  · rw [hslot.1, hslot.2]
    exact hput
  · exact .kept

end CapFlow

namespace Kernel

theorem capFlow_sysIpcEndpointCreate (k : Kernel) {call : IpcCall} (hcall : call.created k =
      k.ipcAllocEndpoint.map fun r => k.endpointCap (ipcCapRightRecv ||| ipcCapRightDup) r.1)
    (x h : ℕ) : CapFlow k call x h (k.sysIpcEndpointCreate.2.cap x h) := by
  cases halloc : k.ipcAllocEndpoint with
  | none =>
    unfold sysIpcEndpointCreate
    rw [halloc]
    exact .kept
  | some r =>
    obtain ⟨ep, k'⟩ := r
    have hsame := (Inert.ipcAllocEndpoint halloc).trans (.allocRings k' ep ep)
    rw [sysIpcEndpointCreate_of_alloc halloc]
    split_ifs
    · have hlink := hsame.trans (.linkPair _ ep ep)
      have hid : (((k'.allocRings ep ep).2.linkPair ep ep).endpoints ep).id = ep :=
        (OnlyEndpoint.allocRings k').then_linkPair.id.trans (of_ipcAllocEndpoint halloc).1
      set k₃ := (k'.allocRings ep ep).2.linkPair ep ep
      have hext : k₃.extIndex k₃.current = k.extIndex k.current := by
        unfold extIndex
        rw [hlink.current, hlink.tasks]
      unfold insertPair
      cases hslot : k₃.ownTable.allocSlot with
      | none => exact .of_ipcExt hlink.ipcExt
      | some slot =>
        have hfree := (free_of_allocSlot hslot).2
        rw [hext, cap_congr hlink.ipcExt] at hfree
        rw [cap_putCap, cap_putCap]
        change CapFlow k call x h (if x = k₃.extIndex k₃.current ∧ h = slot then
          k₃.endpointCap _ (k₃.endpoints ep).id else if x = k₃.extIndex k₃.current ∧ h = slot
            then _ else k₃.cap x h)
        split_ifs with hx
        · have hx' : x = k.extIndex k.current := hx.1.trans hext
          refine .created hx' (hx' ▸ hx.2 ▸ hfree) _ ?_
          rw [hcall, halloc, hid]
          unfold endpointCap
          rw [hlink.tasks, hlink.current]
          rfl
        · exact .of_ipcExt hlink.ipcExt
    · exact .of_ipcExt hsame.ipcExt

theorem capFlow_portAcceptPass (k : Kernel) {call : IpcCall} (hcall : call.created k =
      k.ipcAllocEndpoint.map fun r => k.endpointCap (ipcCapRightRecv ||| ipcCapRightDup) r.1)
    (port x h : ℕ) : CapFlow k call x h ((k.portAcceptPass port).2.cap x h) := by
  unfold portAcceptPass
  split_ifs
  · exact .kept
  · exact .of_ipcExt ((OnlyThreads.schedBlock _).ipcExt.trans (ipcExt_portWaitEnqueue k port _))
  · exact capFlow_sysIpcEndpointCreate k hcall x h

theorem capFlow_sysIpcSend (k : Kernel) (handle : ℕ) (msg : IpcMsg) (flags : UInt32) (x h : ℕ) :
    CapFlow k (.send handle msg flags) x h ((k.sysIpcSend handle msg flags).2.cap x h) := by
  have hcaps := cap_translateCaps (decide (flags &&& ipcMsgfCapTransfer ≠ 0))
    ((List.range msg.capCount).map msg.caps) k x h
  have hflow : CapFlow k (.send handle msg flags) x h
      ((translateCaps (decide (flags &&& ipcMsgfCapTransfer ≠ 0)) k
        ((List.range msg.capCount).map msg.caps)).2.cap x h) := by
    rcases hcaps with hkept | ⟨htr, hx, hmem, hnil⟩
    · rw [hkept]
      exact .kept
    · rw [hnil]
      apply CapFlow.freed hx
      rw [IpcCall.frees, if_pos (of_decide_eq_true htr)]
      exact hmem
  unfold sysIpcSend
  cases k.resolveWith handle ipcCapRightSend with
  | none => exact .kept
  | some c =>
    dsimp only
    split_ifs
    · exact .kept
    · exact .kept
    · rw [cap_congr (ipcExt_ipcMsgEnqueue _ _ _)]
      exact hflow
    · exact hflow
    · exact .kept

theorem cap_sysIpcSend_zero (k : Kernel) (handle : ℕ) (msg : IpcMsg) :
    (k.sysIpcSend handle msg 0).2.cap = k.cap := by
  funext x h
  have hflow := capFlow_sysIpcSend k handle msg 0 x h
  generalize (k.sysIpcSend handle msg 0).2.cap x h = c at hflow
  cases hflow with
  | kept => rfl
  | freed hx hh => cases hh
  | narrowed hx r hcall => cases hcall
  | dup hx hfree j hcall => cases hcall
  | lookup hx hfree name i owner hcall => cases hcall
  | created hx hfree c hcall => cases hcall

theorem cap_sysIpcCall (k : Kernel) (handle : ℕ) (req : IpcMsg) :
    (k.sysIpcCall handle req).2.cap = k.cap := by
  have hsend := cap_sysIpcSend_zero k handle req
  unfold sysIpcCall
  cases k.resolveWith handle ipcCapRightCall with
  | none => rfl
  | some c =>
    dsimp only
    split_ifs
    · rfl
    · rfl
    · exact hsend
    · cases (k.sysIpcSend handle req 0).2.replyCap _ with
      | none => exact hsend
      | some reply => exact (cap_congr (ipcExt_sysIpcRecv _ reply 0)).trans hsend

theorem capFlow_sysIpcPortCreate (k : Kernel) (backlog x h : ℕ) :
    CapFlow k (.portCreate backlog) x h ((k.sysIpcPortCreate backlog).2.cap x h) := by
  unfold sysIpcPortCreate
  cases halloc : k.ipcAllocPort with
  | none => exact .kept
  | some r =>
    obtain ⟨port, k₁⟩ := r
    have hsame := Inert.ipcAllocPort halloc
    have hid : (k₁.ports port).id = port := by
      obtain ⟨i, -, he⟩ := Option.map_eq_some_iff.mp halloc
      obtain ⟨rfl, rfl⟩ := Prod.mk.inj he
      simp [setPort]
    have hown : ∀ p, (k₁.setPort port p).ownTable = k.ownTable := fun p => hsame.ownTable
    have hidx : k₁.extIndex k₁.current = k.extIndex k.current := by
      unfold extIndex
      rw [hsame.tasks, hsame.current]
    dsimp only
    rw [hown]
    cases hslot : k.ownTable.allocSlot with
    | none => exact .of_ipcExt hsame.ipcExt
    | some slot =>
      have hfree := (free_of_allocSlot hslot).2
      rw [cap_putCap]
      split_ifs with hx
      · have hx' : x = k.extIndex k.current := hx.1.trans hidx
        refine .created hx' (hx' ▸ hx.2 ▸ hfree) _ ?_
        rw [IpcCall.created, halloc, hid]
        rfl
      · exact .of_ipcExt hsame.ipcExt

theorem capFlow_sysIpcNsLookup (k : Kernel) (name : Bytes) (x h : ℕ) :
    CapFlow k (.nsLookup name) x h ((k.sysIpcNsLookup name).2.cap x h) := by
  unfold sysIpcNsLookup
  cases hfind : k.ipcNsFind name with
  | none => exact .kept
  | some i =>
    cases hslot : k.ownTable.allocSlot with
    | none => exact .kept
    | some slot =>
      dsimp only
      cases howner : k.schedGetThreadById (k.nsEntries i).ownerTaskId with
      | none => exact .kept
      | some owner =>
        apply CapFlow.of_putCap
        exact .lookup rfl (free_of_allocSlot hslot).2 name i owner rfl hfind howner _ rfl

theorem capFlow_sysIpcObjectDestroy (k : Kernel) (handle : ℕ) {call : IpcCall}
    (hcall : handle ∈ call.frees) (x h : ℕ) :
    CapFlow k call x h ((k.sysIpcObjectDestroy handle).2.cap x h) := by
  unfold sysIpcObjectDestroy
  cases k.resolveWith handle ipcCapRightRevoke with
  | none => exact .kept
  | some c =>
    have hsame := Inert.destroyObject k c
    have hidx : (k.destroyObject c).extIndex (k.destroyObject c).current =
        k.extIndex k.current := by
      unfold extIndex
      rw [hsame.tasks, hsame.current]
    rw [cap_freeSlot, hidx, cap_congr hsame.ipcExt]
    split_ifs with hx
    · exact .freed hx.1 (hx.2.1 ▸ hcall)
    · exact .kept

theorem capFlow_sysIpcCapNarrow (k : Kernel) (handle : ℕ) (newRights : UInt32) (x h : ℕ) :
    CapFlow k (.capNarrow handle newRights) x h
      ((k.sysIpcCapNarrow handle newRights).2.cap x h) := by
  unfold sysIpcCapNarrow
  cases hres : k.ownTable.resolve handle with
  | none => exact .kept
  | some c =>
    obtain ⟨-, rfl, -⟩ := of_resolve hres
    dsimp only
    split_ifs
    · exact .kept
    · apply CapFlow.of_putCap
      exact .narrowed rfl newRights rfl

theorem capFlow_sysIpcCapDup (k : Kernel) (handle x h : ℕ) :
    CapFlow k (.capDup handle) x h ((k.sysIpcCapDup handle).2.cap x h) := by
  unfold sysIpcCapDup
  cases hres : k.resolveWith handle ipcCapRightDup with
  | none => exact .kept
  | some c =>
    obtain ⟨hlt, rfl, hvalid, -⟩ := of_resolveWith hres
    cases hslot : k.ownTable.allocSlot with
    | none => exact .kept
    | some slot =>
      apply CapFlow.of_putCap
      exact .dup rfl (free_of_allocSlot hslot).2 handle rfl hlt hvalid

end Kernel

theorem IpcCall.capFlow (k : Kernel) (call : IpcCall) (x h : ℕ) :
    CapFlow k call x h ((call.exec k).cap x h) := by
  cases call with
  | endpointCreate => exact capFlow_sysIpcEndpointCreate k rfl x h
  | send handle msg flags => exact capFlow_sysIpcSend k handle msg flags x h
  | recv handle flags => exact .of_ipcExt (ipcExt_sysIpcRecv k handle flags)
  | recvResume ep => exact .of_ipcExt (Inert.ipcMsgDequeue k ep).ipcExt
  | call handle req =>
    change CapFlow k _ x h ((k.sysIpcCall handle req).2.cap x h)
    rw [cap_sysIpcCall]
    exact .kept
  | portCreate backlog => exact capFlow_sysIpcPortCreate k backlog x h
  | portAccept handle =>
    change CapFlow k _ x h ((k.sysIpcPortAccept handle).2.cap x h)
    unfold sysIpcPortAccept
    cases k.ownTable.resolve handle with
    | none => exact .kept
    | some c =>
      dsimp only
      split_ifs
      · exact .kept
      · exact capFlow_portAcceptPass k rfl c.objectId x h
  | portAcceptResume port => exact capFlow_portAcceptPass k rfl port x h
  | nsRegister name handle =>
    change CapFlow k _ x h ((k.sysIpcNsRegister name handle).2.cap x h)
    unfold sysIpcNsRegister
    split_ifs
    · exact .kept
    · exact .of_ipcExt (SameThreads.ipcNsInsert k name handle _).1.ipcExt
  | nsLookup name => exact capFlow_sysIpcNsLookup k name x h
  | objectDestroy handle => exact capFlow_sysIpcObjectDestroy k handle List.mem_cons_self x h
  | objectPause handle =>
    change CapFlow k _ x h ((k.sysIpcObjectPause handle).2.cap x h)
    unfold sysIpcObjectPause
    cases k.resolveWith handle ipcCapRightRevoke with
    | none => exact .kept
    | some c =>
      dsimp only
      split_ifs
      all_goals first
        | exact .of_ipcExt (Inert.ipcLifecycleTransition k c.objectId .paused).ipcExt
        | exact .kept
  | objectResume handle =>
    change CapFlow k _ x h ((k.sysIpcObjectResume handle).2.cap x h)
    unfold sysIpcObjectResume
    cases k.ownTable.resolve handle with
    | none => exact .kept
    | some c =>
      dsimp only
      split_ifs <;> exact .of_ipcExt rfl
  | objectDrain handle =>
    change CapFlow k _ x h ((k.sysIpcObjectDrain handle).2.cap x h)
    unfold sysIpcObjectDrain
    cases k.resolveWith handle ipcCapRightRevoke with
    | none => exact .kept
    | some c =>
      have hsame := (Inert.ipcLifecycleTransition k c.objectId .draining).ipcExt
      dsimp only
      split_ifs
      · exact .of_ipcExt ((ipcExt_drainPass _ _).trans hsame)
      · exact .of_ipcExt hsame
      · exact .kept
  | objectDrainResume ep => exact .of_ipcExt (ipcExt_drainPass k ep)
  | capNarrow handle newRights => exact capFlow_sysIpcCapNarrow k handle newRights x h
  | capRevoke handle => exact capFlow_sysIpcObjectDestroy k handle List.mem_cons_self x h
  | capDup handle => exact capFlow_sysIpcCapDup k handle x h

end SageOS
