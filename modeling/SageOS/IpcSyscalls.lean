import SageOS.Ipc

/-!
# IPC system calls

Every call acts for the current thread through its own capability table. The calls that wait are
cut where the thread gives up the processor: `sysIpcRecv` either finishes or reports the endpoint
it waits on, and `sysIpcRecvResume` is the rest of it after the thread has been scheduled again.
-/
namespace SageOS

inductive IpcOutcome
  | ret (code : ℤ)
  | message (msg : IpcMsg)
  | handle (h : ℕ)
  | handles (send recv : ℕ)
  | blocked
  | fault

namespace Kernel
variable (k : Kernel)

def ownTable : CapTable := k.capTable k.current

def setOwnTable (tab : CapTable) : Kernel := k.setCapTable k.current tab

/-- `ipc_cap_resolve` for the current thread, with a right that must be present. -/
def resolveWith (handle : ℕ) (right : UInt32) : Option IpcCapability :=
  (k.ownTable.resolve handle).filter fun cap => cap.hasRight right

def putCap (slot : ℕ) (cap : IpcCapability) : Kernel := k.setOwnTable (k.ownTable.set slot cap)

/-- The ring of an endpoint: zeroed memory, or the null pointer. -/
def ringAlloc (ep : ℕ) : Kernel :=
  match k.arena.sageMalloc (ipcMsgSize * ipcRingSize) with
  | none => k.modifyEndpoint ep fun e => { e with msgRing := none }
  | some (ptr, a) =>
    { k with
      arena := a
      ringMem := Function.update k.ringMem ptr fun _ => {} }.modifyEndpoint
      ep fun e => { e with msgRing := some ptr }

def ringFree (ep : ℕ) : Kernel :=
  { k with arena := (k.endpoints ep).msgRing.elim k.arena k.arena.sageFree }

def killPair (send recv : ℕ) : Kernel :=
  (k.modifyEndpoint send fun e => { e with state := .dead }).modifyEndpoint recv
    fun e => { e with state := .dead }

/-- The two rings; when one is missing, what there is gets freed and both endpoints die. -/
def allocRings (send recv : ℕ) : Bool × Kernel :=
  let k₁ := (k.modifyEndpoint send fun e => { e with ringSize := ipcRingSize }).modifyEndpoint recv
    fun e => { e with ringSize := ipcRingSize }
  let k₂ := (k₁.ringAlloc send).ringAlloc recv
  if (k₂.endpoints send).msgRing = none ∨ (k₂.endpoints recv).msgRing = none then
    (false, ((k₂.ringFree send).ringFree recv).killPair send recv)
  else (true, k₂)

def linkPair (send recv : ℕ) : Kernel :=
  let owner := (k.tasks k.current).id
  (k.modifyEndpoint send fun e =>
    { e with
      peerCap := (k.endpoints recv).id
      boundTask := owner
      state := .active }).modifyEndpoint recv fun e =>
    { e with peerCap := (k.endpoints send).id, boundTask := owner, state := .active }

def endpointCap (rights : UInt32) (objectId : ℕ) : IpcCapability where
  rights := rights
  objectType := .endpoint
  objectId := objectId
  refCount := 1
  ownerTask := (k.tasks k.current).id

/-- Slots are looked up twice before either capability is stored. -/
def insertPair (send recv : ℕ) : IpcOutcome × Kernel :=
  match k.ownTable.allocSlot with
  | none => (.ret (-1), k.killPair send recv)
  | some sendHandle =>
    match k.ownTable.allocSlot with
    | none => (.ret (-1), k.killPair send recv)
    | some recvHandle =>
      let k₁ := k.putCap sendHandle
        (k.endpointCap (ipcCapRightSend ||| ipcCapRightCall ||| ipcCapRightDup)
          (k.endpoints send).id)
      let k₂ := k₁.putCap recvHandle
        (k.endpointCap (ipcCapRightRecv ||| ipcCapRightDup) (k.endpoints recv).id)
      (.handles sendHandle recvHandle, k₂)

def sysIpcEndpointCreate : IpcOutcome × Kernel :=
  match k.ipcAllocEndpoint with
  | none => (.ret (-1), k)
  | some (send, k₁) =>
    match k₁.ipcAllocEndpoint with
    | none => (.ret (-1), k₁.modifyEndpoint send fun e => { e with state := .dead })
    | some (recv, k₂) =>
      let r := k₂.allocRings send recv
      if r.1 then (r.2.linkPair send recv).insertPair send recv else (.ret (-1), r.2)

/-- Embedded handles must resolve; with `CAP_TRANSFER` each is freed as it is met. -/
def translateCaps (transfer : Bool) : Kernel → List ℕ → Bool × Kernel
  | k, [] => (true, k)
  | k, h :: rest =>
    if (k.ownTable.resolve h).isNone then (false, k)
    else if transfer then translateCaps transfer (k.setOwnTable (k.ownTable.freeSlot h)) rest
    else translateCaps transfer k rest

def IpcMsg.wellFormed (msg : IpcMsg) : Prop :=
  msg.magic = ipcMsgMagic ∧ msg.payloadLen ≤ ipcMsgMaxBytes ∧ msg.capCount ≤ ipcMsgMaxCaps

instance (msg : IpcMsg) : Decidable (IpcMsg.wellFormed msg) := inferInstanceAs (Decidable (_ ∧ _))

def sysIpcSend (handle : ℕ) (msg : IpcMsg) (flags : UInt32) : ℤ × Kernel :=
  match k.resolveWith handle ipcCapRightSend with
  | none => (-1, k)
  | some cap =>
    if cap.objectType ≠ .endpoint then (-1, k)
    else if (k.endpoints cap.objectId).state.isOpen = false then (-1, k)
    else if ¬ IpcMsg.wellFormed msg then (-1, k)
    else
      let sent := { msg with senderTask := (k.tasks k.current).id, senderCap := handle }
      let r := translateCaps (flags &&& ipcMsgfCapTransfer ≠ 0) k
        ((List.range msg.capCount).map msg.caps)
      if r.1 then r.2.ipcMsgEnqueue cap.objectId sent else (-1, r.2)

def recvOutcome (r : ℤ × Option IpcMsg × Kernel) : IpcOutcome × Kernel :=
  (if r.1 < 0 then .ret r.1 else r.2.1.elim (.ret r.1) .message, r.2.2)

def sysIpcRecvResume (ep : ℕ) : IpcOutcome × Kernel := recvOutcome (k.ipcMsgDequeue ep)

def sysIpcRecv (handle : ℕ) (flags : UInt32) : IpcOutcome × Kernel :=
  match k.resolveWith handle ipcCapRightRecv with
  | none => (.ret (-1), k)
  | some cap =>
    if cap.objectType ≠ .endpoint then (.ret (-1), k)
    else
      let r := k.ipcMsgDequeue cap.objectId
      if r.1 = -2 then
        if flags &&& ipcMsgfNoblock ≠ 0 then (.ret (-1), r.2.2)
        else (.blocked, (r.2.2.ipcWaitEnqueue cap.objectId k.current).schedBlock)
      else recvOutcome r

/-- The first slot of the own table that can receive on endpoint `ep`. -/
def replyCap (ep : ℕ) : Option ℕ :=
  (List.range ipcCapMaxPerTask).find? fun i =>
    (k.ownTable.caps i).objectId = ep ∧ (k.ownTable.caps i).objectType = .endpoint ∧
      (k.ownTable.caps i).hasRight ipcCapRightRecv

def sysIpcCall (handle : ℕ) (req : IpcMsg) : IpcOutcome × Kernel :=
  match k.resolveWith handle ipcCapRightCall with
  | none => (.ret (-1), k)
  | some cap =>
    if cap.objectType ≠ .endpoint then (.ret (-1), k)
    else
      let peer := (k.endpoints cap.objectId).peerCap
      if ipcMaxEndpoints ≤ peer then (.ret (-1), k)
      else
        let r := k.sysIpcSend handle req 0
        if r.1 < 0 then (.ret r.1, r.2)
        else
          match r.2.replyCap (r.2.endpoints peer).id with
          | none => (.ret (-1), r.2)
          | some reply => r.2.sysIpcRecv reply 0

def sysIpcPortCreate (backlog : ℕ) : IpcOutcome × Kernel :=
  match k.ipcAllocPort with
  | none => (.ret (-1), k)
  | some (port, k₁) =>
    let owner := (k.tasks k.current).id
    let p : IpcPort :=
      { k₁.ports port with backlog := min backlog 16, ownerTask := owner, state := .active }
    let k₂ := k₁.setPort port p
    match k₂.ownTable.allocSlot with
    | none => (.ret (-1), k₂.setPort port { p with state := .dead })
    | some slot =>
      (.handle slot, k₂.putCap slot
        { rights := ipcCapRightSend ||| ipcCapRightRecv ||| ipcCapRightDup
          objectType := .port
          objectId := p.id
          refCount := 1
          ownerTask := owner })

/-- One pass of the accept loop on port `port`. -/
def portAcceptPass (port : ℕ) : IpcOutcome × Kernel :=
  if (k.ports port).state ≠ .active then (.ret (-1), k)
  else if (k.ports port).pendingCount = 0 then
    (.blocked, (k.portWaitEnqueue port k.current).schedBlock)
  else
    let r := k.sysIpcEndpointCreate
    (match r.1 with
      | .handles «local» _ => .handle «local»
      | _ => .ret (-1), r.2)

def sysIpcPortAccept (handle : ℕ) : IpcOutcome × Kernel :=
  match k.ownTable.resolve handle with
  | none => (.ret (-1), k)
  | some cap =>
    if cap.objectType ≠ .port then (.ret (-1), k) else k.portAcceptPass cap.objectId

def sysIpcNsRegister (name : Bytes) (handle : ℕ) : IpcOutcome × Kernel :=
  if (k.ownTable.resolve handle).isNone then (.ret (-1), k)
  else
    let r := k.ipcNsInsert name handle (k.tasks k.current).id
    (.ret r.1, r.2)

/-- The registered slot is copied as it is now; a registrant that is gone is a null pointer. -/
def sysIpcNsLookup (name : Bytes) : IpcOutcome × Kernel :=
  match k.ipcNsFind name with
  | none => (.ret (-1), k)
  | some i =>
    match k.ownTable.allocSlot with
    | none => (.ret (-1), k)
    | some slot =>
      match k.schedGetThreadById (k.nsEntries i).ownerTaskId with
      | none => (.fault, k)
      | some owner =>
        let src := (k.capTable owner).caps (k.nsEntries i).capHandle
        (.handle slot, k.putCap slot
          { src with
            rights := src.rights &&& ~~~(ipcCapRightRevoke ||| ipcCapRightDup)
            refCount := src.refCount + 1
            ownerTask := (k.tasks k.current).id })

/-- What destroying does to the object behind a capability. -/
def destroyObject (cap : IpcCapability) : Kernel :=
  match cap.objectType with
  | .endpoint | .channel =>
    { k with
      arena := (k.endpoints cap.objectId).msgRing.elim k.arena k.arena.sageFree }.modifyEndpoint
        cap.objectId fun e => { e with state := .dead, msgRing := none }
  | .port => k.setPort cap.objectId { k.ports cap.objectId with state := .dead }
  | .sharedMem =>
    let s := { k.shm cap.objectId with state := .dead }
    { k with shm := Function.update k.shm cap.objectId s }
  | .none | .signalSet | .monitor | .file | .dir => k

def sysIpcObjectDestroy (handle : ℕ) : ℤ × Kernel :=
  match k.resolveWith handle ipcCapRightRevoke with
  | none => (-1, k)
  | some cap =>
    let k₁ := k.destroyObject cap
    (0, k₁.setOwnTable (k₁.ownTable.freeSlot handle))

def isEndpointLike (cap : IpcCapability) : Prop :=
  cap.objectType = .endpoint ∨ cap.objectType = .channel

instance (cap : IpcCapability) : Decidable (isEndpointLike cap) :=
  inferInstanceAs (Decidable (_ ∨ _))

def sysIpcObjectPause (handle : ℕ) : ℤ × Kernel :=
  match k.resolveWith handle ipcCapRightRevoke with
  | none => (-1, k)
  | some cap =>
    if isEndpointLike cap then
      let r := k.ipcLifecycleTransition cap.objectId .paused
      (if r.1 then 0 else -1, r.2)
    else (-1, k)

/-- Resuming asks for no right. -/
def sysIpcObjectResume (handle : ℕ) : ℤ × Kernel :=
  match k.ownTable.resolve handle with
  | none => (-1, k)
  | some cap =>
    if isEndpointLike cap ∧ (k.endpoints cap.objectId).state = .paused then
      (0, k.modifyEndpoint cap.objectId fun e => { e with state := .active })
    else (-1, k)

/-- One pass of the drain loop: the endpoint dies when its queue is empty. -/
def drainPass (ep : ℕ) : IpcOutcome × Kernel :=
  if (k.endpoints ep).msgCount = 0 then
    (.ret 0, if (k.endpoints ep).state = .draining then
      k.modifyEndpoint ep fun e => { e with state := .dead } else k)
  else (.blocked, k.schedSchedule)

def sysIpcObjectDrain (handle : ℕ) : IpcOutcome × Kernel :=
  match k.resolveWith handle ipcCapRightRevoke with
  | none => (.ret (-1), k)
  | some cap =>
    if isEndpointLike cap then
      let r := k.ipcLifecycleTransition cap.objectId .draining
      if r.1 then r.2.drainPass cap.objectId else (.ret (-1), r.2)
    else (.ret (-1), k)

def sysIpcCapNarrow (handle : ℕ) (newRights : UInt32) : ℤ × Kernel :=
  match k.ownTable.resolve handle with
  | none => (-1, k)
  | some cap =>
    if cap.flags &&& ipcCapfImmutable ≠ 0 then (-1, k)
    else (0, k.putCap handle { cap with rights := cap.rights &&& (newRights &&& ipcCapRightsAll) })

def sysIpcCapRevoke (handle : ℕ) : ℤ × Kernel := k.sysIpcObjectDestroy handle

def sysIpcCapDup (handle : ℕ) : IpcOutcome × Kernel :=
  match k.resolveWith handle ipcCapRightDup with
  | none => (.ret (-1), k)
  | some src =>
    match k.ownTable.allocSlot with
    | none => (.ret (-1), k)
    | some slot => (.handle slot, k.putCap slot { src with refCount := src.refCount + 1 })

end Kernel
end SageOS
