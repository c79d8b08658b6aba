import SageOS.Scheduler

/-!
# IPC objects

Pool allocation, the message rings of endpoints, their wait queues, lifecycle transitions and the
name space. A pool entry counts as free while it is dead or constructed, so an entry that was
allocated and not yet activated is handed out again.
-/
namespace SageOS

def ipcMsgMaxBytes : ℕ := 4096

def ipcMsgMaxCaps : ℕ := 8

def ipcMsgMagic : ℕ := 0x49504321

def ipcMsgfNoblock : UInt32 := 1

def ipcMsgfCapTransfer : UInt32 := 4

def ipcRingSize : ℕ := 16

/-- `sizeof (ipc_msg_t)`: seven header words, the payload and eight handles. -/
def ipcMsgSize : ℕ := 28 + 4096 + 32

def IpcLifecycleState.isFree : IpcLifecycleState → Bool
  | .dead | .constructed => true
  | .active | .paused | .draining => false

def IpcLifecycleState.isOpen : IpcLifecycleState → Bool
  | .active | .draining => true
  | .dead | .constructed | .paused => false

namespace Kernel
variable (k : Kernel)

def setEndpoint (i : ℕ) (e : IpcEndpoint) : Kernel :=
  { k with endpoints := Function.update k.endpoints i e }

def modifyEndpoint (i : ℕ) (f : IpcEndpoint → IpcEndpoint) : Kernel :=
  k.setEndpoint i (f (k.endpoints i))

def setPort (i : ℕ) (p : IpcPort) : Kernel := { k with ports := Function.update k.ports i p }

def setNsEntry (i : ℕ) (e : IpcNsEntry) : Kernel :=
  { k with nsEntries := Function.update k.nsEntries i e }

def ipcAllocEndpoint : Option (ℕ × Kernel) :=
  ((List.range ipcMaxEndpoints).find? fun i => (k.endpoints i).state.isFree).map fun i =>
    (i, k.setEndpoint i { id := i, type := .endpoint, state := .constructed })

def ipcAllocPort : Option (ℕ × Kernel) :=
  ((List.range ipcMaxPorts).find? fun i => (k.ports i).state.isFree).map fun i =>
    (i, k.setPort i { id := i, type := .port, state := .constructed })

/-- A compare-and-swap from the one state the transition starts in. -/
def ipcLifecycleTransition (ep : ℕ) (target : IpcLifecycleState) : Bool × Kernel :=
  let expected : Option IpcLifecycleState :=
    match target with
    | .active => some .constructed
    | .paused => some .active
    | .draining => some .active
    | .dead => some .paused
    | .constructed => none
  if expected = some (k.endpoints ep).state then
    (true, k.modifyEndpoint ep fun e => { e with state := target })
  else (false, k)

/-- The waiter at the head of the queue leaves it and becomes ready. -/
def ipcWakeOne (ep : ℕ) : Kernel :=
  match (k.endpoints ep).waitHead with
  | none => k
  | some w =>
    let next := (k.tasks w).next
    (k.modifyEndpoint ep fun e =>
      { e with
        waitHead := next
        waitTail := if next = none then none else e.waitTail }).schedUnblock w

def ipcMsgEnqueue (ep : ℕ) (msg : IpcMsg) : ℤ × Kernel :=
  let e := k.endpoints ep
  if e.state.isOpen = false then (-1, k)
  else if e.ringSize ≤ e.msgCount then
    (-1, k.setEndpoint ep { e with drops := e.drops + 1 })
  else
    let slot := e.head % e.ringSize
    let mem := e.msgRing.elim k.ringMem fun r =>
      Function.update k.ringMem r (Function.update (k.ringMem r) slot msg)
    let k₁ := { k with ringMem := mem }.setEndpoint ep
      { e with
        head := (e.head + 1) % e.ringSize
        msgCount := e.msgCount + 1
        msgsSent := e.msgsSent + 1
        bytesMoved := e.bytesMoved + msg.payloadLen }
    (0, k₁.ipcWakeOne ep)

/-- `-1` at the end of a closed queue, `-2` when the caller has to wait. -/
def ipcMsgDequeue (ep : ℕ) : ℤ × Option IpcMsg × Kernel :=
  let e := k.endpoints ep
  if e.msgCount = 0 then
    (if e.state = .draining ∨ e.state = .dead then -1 else -2, none, k)
  else
    let msg := e.msgRing.elim {} fun r => k.ringMem r (e.tail % e.ringSize)
    (0, some msg, k.setEndpoint ep
      { e with
        tail := (e.tail + 1) % e.ringSize
        msgCount := e.msgCount - 1
        msgsRecv := e.msgsRecv + 1 })

/-- The thread is appended to a wait queue and marked as blocked. -/
def linkWaiter (tail : Option ℕ) (t : ℕ) : Kernel :=
  let k₁ := k.modifyTask t fun th => { th with next := none }
  let k₂ := tail.elim k₁ fun w => k₁.modifyTask w fun th => { th with next := some t }
  k₂.modifyTask t fun th => { th with state := .blocked }

def ipcWaitEnqueue (ep t : ℕ) : Kernel :=
  let e := k.endpoints ep
  if e.waitHead = none then
    (k.linkWaiter none t).setEndpoint ep { e with waitHead := some t, waitTail := some t }
  else (k.linkWaiter e.waitTail t).setEndpoint ep { e with waitTail := some t }

/-- The same through the cast of a port, whose queue lies in its first pending request. -/
def portWaitEnqueue (port t : ℕ) : Kernel :=
  let p := k.ports port
  if p.waitHead = none then
    (k.linkWaiter none t).setPort port { p with waitHead := some t, waitTail := some t }
  else (k.linkWaiter p.waitTail t).setPort port { p with waitTail := some t }

/-- `strtok` at dots of the name as it fits its buffer. -/
def nsTokens (name : Bytes) : List Bytes :=
  ((strncpy 64 name).chars.splitOnP (· == 46)).filter (· ≠ [])

/-- Search of a sibling list; the lists are shorter than the pool. -/
def nsFindChild (token : Bytes) : ℕ → Option ℕ → Option ℕ
  | 0, _ => none
  | _ + 1, none => none
  | fuel + 1, some i =>
    if strcmp (k.nsEntries i).name.chars token = 0 then some i
    else nsFindChild token fuel (k.nsEntries i).sibling

def nsChild (cur : ℕ) (token : Bytes) : Option ℕ :=
  k.nsFindChild token (ipcMaxNsEntries + 1) (k.nsEntries cur).child

def ipcNsFind (name : Bytes) : Option ℕ :=
  k.nsRoot.bind fun root => (nsTokens name).foldlM (fun cur token => k.nsChild cur token) root

/-- The entry for one more token, allocated when it is missing. -/
def nsExtend (cur : ℕ) (token : Bytes) : Option (ℕ × Kernel) :=
  match k.nsChild cur token with
  | some i => some (i, k)
  | none =>
    if ipcMaxNsEntries ≤ k.nsCount then none
    else
      let n := k.nsCount
      let k₁ := { k with nsCount := n + 1 }.setNsEntry n { name := strncpy 64 token }
      let k₂ := k₁.setNsEntry n { k₁.nsEntries n with sibling := (k₁.nsEntries cur).child }
      some (n, k₂.setNsEntry cur { k₂.nsEntries cur with child := some n })

/-- The entries allocated for earlier tokens stay when the pool runs out. -/
def nsInsertTokens (handle owner : ℕ) : Kernel → ℕ → List Bytes → ℤ × Kernel
  | k, cur, [] =>
    (0, k.setNsEntry cur { k.nsEntries cur with capHandle := handle, ownerTaskId := owner })
  | k, cur, token :: rest =>
    match k.nsExtend cur token with
    | none => (-1, k)
    | some (next, k₁) => nsInsertTokens handle owner k₁ next rest

def ipcNsInsert (name : Bytes) (handle owner : ℕ) : ℤ × Kernel :=
  match k.nsRoot with
  | some root => nsInsertTokens handle owner k root (nsTokens name)
  | none =>
    nsInsertTokens handle owner ({ k with nsRoot := some 0 }.setNsEntry 0 {}) 0 (nsTokens name)

end Kernel
end SageOS
