import SageOS.Btrfs
import SageOS.EndpointQueue

/-!
# The message wrappers of the language bindings

Three layouts meet here: the kernel's message of 4156 bytes, the message record of the C library
and the arguments of the SageLang functions. The C library builds a header and then hands the
kernel the pointer to the payload in its place, with the length where the kernel takes the flags.
The SageLang function fills a zeroed message and leaves the magic number out.
-/
namespace SageOS

abbrev UserMem := ℕ → UInt8

structure IpcMessage where
  type : ℕ
  flags : ℕ
  data : ℕ
  len : ℕ
  caps : ℕ
  capCount : ℕ

namespace UserMem

/-- The kernel message that starts at `a`. -/
def readMsg (mem : UserMem) (a : ℕ) : IpcMsg where
  magic := le32 mem a
  type := le32 mem (a + 4)
  senderTask := le32 mem (a + 8)
  senderCap := le32 mem (a + 12)
  flags := UInt32.ofNat (le32 mem (a + 16))
  payloadLen := le32 mem (a + 20)
  capCount := le32 mem (a + 24)
  payload := (List.range ipcMsgMaxBytes).map fun i => mem (a + 28 + i)
  caps i := le32 mem (a + 28 + ipcMsgMaxBytes + 4 * i)

def byteOf (w i : ℕ) : UInt8 := (w / 2 ^ (8 * i)).toUInt8

def msgByte (m : IpcMsg) (i : ℕ) : UInt8 :=
  if i < 28 then
    byteOf (match i / 4 with
      | 0 => m.magic
      | 1 => m.type
      | 2 => m.senderTask
      | 3 => m.senderCap
      | 4 => m.flags.toNat
      | 5 => m.payloadLen
      | _ => m.capCount) (i % 4)
  else if i < 28 + ipcMsgMaxBytes then m.payload.getD (i - 28) 0
  else byteOf (m.caps ((i - 28 - ipcMsgMaxBytes) / 4)) ((i - 28 - ipcMsgMaxBytes) % 4)

def writeMsg (mem : UserMem) (a : ℕ) (m : IpcMsg) : UserMem := fun x =>
  if a ≤ x ∧ x < a + ipcMsgSize then msgByte m (x - a) else mem x

def readMessage (mem : UserMem) (a : ℕ) : IpcMessage where
  type := le32 mem a
  flags := le32 mem (a + 4)
  data := le64 mem (a + 8)
  len := le64 mem (a + 16)
  caps := le64 mem (a + 24)
  capCount := le64 mem (a + 32)

def slice (mem : UserMem) (a n : ℕ) : Bytes := (List.range n).map fun i => mem (a + i)

def store (mem : UserMem) (a : ℕ) (bs : Bytes) : UserMem := fun x =>
  if a ≤ x ∧ x < a + bs.length then bs.getD (x - a) 0 else mem x

end UserMem

open UserMem
namespace Kernel
variable (k : Kernel) (mem : UserMem)

/-- `ipc_syscall_dispatch` for `SYS_ipc_send`. -/
def dispatchIpcSend (a1 a2 a3 : ℕ) : ℤ × Kernel :=
  k.sysIpcSend (a1 % 2 ^ 32) (mem.readMsg a2) (UInt32.ofNat a3)

/-- `ipc_syscall_dispatch` for `SYS_ipc_recv`. -/
def dispatchIpcRecv (a1 a2 a3 : ℕ) : IpcOutcome × Kernel × UserMem :=
  let r := k.sysIpcRecv (a1 % 2 ^ 32) (UInt32.ofNat a3)
  match r.1 with
  | .message m => (.ret 0, r.2, mem.writeMsg a2 m)
  | o => (o, r.2, mem)

/-- The header that the wrapper builds is not part of the call. -/
def ipcSend (handle : ℕ) (msg : IpcMessage) : ℤ × Kernel :=
  k.dispatchIpcSend mem handle msg.data msg.len

def ipcRecv (handle msg : ℕ) : IpcOutcome × Kernel × UserMem := k.dispatchIpcRecv mem handle msg 0

/-- The message that `sage_ipc_send` fills; the length is cut for the copy only. -/
def sageMsg (type : ℕ) (data : Option ℕ) (len : ℕ) : IpcMsg where
  type := type
  payloadLen := len
  payload :=
    let copied := data.elim [] fun p => mem.slice p (min len ipcMsgMaxBytes)
    copied ++ List.replicate (ipcMsgMaxBytes - copied.length) 0

def sageIpcSend (handle type : ℕ) (data : Option ℕ) (len : ℕ) (flags : UInt32) : ℤ × Kernel :=
  k.sysIpcSend handle (sageMsg mem type data len) flags

/-- The array `[result, actual_len, type]`, unless the thread has to wait. -/
def sageIpcRecv (handle : ℕ) (buf : Option ℕ) (maxLen : ℕ) (flags : UInt32) :
    Option (ℤ × ℕ × ℕ) × Kernel × UserMem :=
  let r := k.sysIpcRecv handle flags
  match r.1 with
  | .message m =>
    let actual := min m.payloadLen maxLen
    (some (0, actual, m.type), r.2,
      buf.elim mem fun p => mem.store p (m.payload.take actual))
  | .ret code => (some (code, 0, 0), r.2, mem)
  | _ => (none, r.2, mem)

end Kernel

/-- One message and how it is sent and received: the sender's handle, the record of the C library
with the same type and payload, and the receiver's buffers. -/
structure Exchange where
  handle : ℕ
  msg : IpcMessage
  flags : UInt32
  receiver : ℕ
  recvHandle : ℕ
  recvFlags : UInt32
  buf : ℕ
  record : ℕ

namespace Kernel
variable {k : Kernel} {mem : UserMem}

/-- The current thread may send on the active endpoint `ep`, which has room. -/
structure MaySend (k : Kernel) (handle ep : ℕ) : Prop where
  cap : ∃ c, k.resolveWith handle ipcCapRightSend = some c ∧ c.objectType = .endpoint ∧
    c.objectId = ep
  active : (k.endpoints ep).state = .active
  room : (k.endpoints ep).msgCount < (k.endpoints ep).ringSize

/-- The receiver runs, and has taken the messages that were there before. -/
def upNext (k : Kernel) (receiver ep earlier : ℕ) : Kernel :=
  { (fun k => (k.ipcMsgDequeue ep).2.2)^[earlier] k with current := receiver }

/-- The SageLang functions carry the message over. -/
def SageDelivers (k : Kernel) (mem : UserMem) (x : Exchange) (ep : ℕ) : Prop :=
  let sent := k.sageIpcSend mem x.handle x.msg.type (some x.msg.data) x.msg.len x.flags
  let got := (sent.2.upNext x.receiver ep (k.endpoints ep).msgCount).sageIpcRecv mem x.recvHandle
    (some x.buf) x.msg.len x.recvFlags
  sent.1 = 0 ∧ got.1 = some (0, x.msg.len, x.msg.type) ∧
    got.2.2.slice x.buf x.msg.len = mem.slice x.msg.data x.msg.len

/-- The functions of the C library carry the message over. -/
def LibraryDelivers (k : Kernel) (mem : UserMem) (x : Exchange) (ep : ℕ) : Prop :=
  let sent := k.ipcSend mem x.handle x.msg
  let got := (sent.2.upNext x.receiver ep (k.endpoints ep).msgCount).ipcRecv mem x.recvHandle
    x.record
  let msg := got.2.2.readMessage x.record
  sent.1 = 0 ∧ got.1 = .ret 0 ∧ msg.type = x.msg.type ∧ msg.len = x.msg.len ∧
    got.2.2.slice msg.data msg.len = mem.slice x.msg.data x.msg.len

theorem sysIpcSend_of_not_wellFormed {handle : ℕ} {msg : IpcMsg} {flags : UInt32}
    (h : ¬ IpcMsg.wellFormed msg) : (k.sysIpcSend handle msg flags).1 = -1 :=
  (sysIpcSend_of_not_accepts fun _ haccepts => h haccepts.wellFormed).1

theorem sageIpcSend_refused (handle type : ℕ) (data : Option ℕ) (len : ℕ) (flags : UInt32) :
    (k.sageIpcSend mem handle type data len flags).1 = -1 := by
  apply sysIpcSend_of_not_wellFormed
  intro hwf
  have hmagic : 0 = ipcMsgMagic := hwf.1
  exact absurd hmagic (by decide)

end Kernel

open Kernel

/-- The wrappers agree with the kernel on no message at all: the property holds of an exchange
only when its sender may not send. -/
theorem wrappers_deliver_iff (k : Kernel) (mem : UserMem) (x : Exchange) (ep : ℕ) :
    (k.MaySend x.handle ep → k.SageDelivers mem x ep ∧ k.LibraryDelivers mem x ep) ↔
      ¬ k.MaySend x.handle ep := by
  constructor
  · intro h hmay
    obtain ⟨hsent, -⟩ := (h hmay).1
    rw [sageIpcSend_refused] at hsent
    exact absurd hsent (by decide)
  · intro hno hmay
    exact absurd hmay hno

/-- A thread that may send in slot 1 and receive in slot 2 on an empty active endpoint. -/
def openChannel : Kernel where
  ipcExt _ := ⟨fun i =>
    if i = 1 then { objectType := .endpoint, rights := ipcCapRightSend, refCount := 1 }
    else if i = 2 then { objectType := .endpoint, rights := ipcCapRightRecv, refCount := 1 }
    else {}, 3⟩
  endpoints _ := { type := .endpoint, state := .active, msgRing := some 16, ringSize := 16 }

/-- Neither wrapper gets the empty message of type 7 accepted. -/
theorem open_channel_refuses :
    (∃ c, openChannel.resolveWith 1 ipcCapRightSend = some c ∧ c.objectType = .endpoint) ∧
      (openChannel.endpoints 0).state = .active ∧
      (openChannel.sageIpcSend (fun _ => 0) 1 7 (some 64) 0 0).1 = -1 ∧
      (openChannel.ipcSend (fun _ => 0) 1 ⟨7, 0, 64, 0, 0, 0⟩).1 = -1 := by
  refine ⟨⟨{ objectType := .endpoint, rights := ipcCapRightSend, refCount := 1 }, ?_, rfl⟩, rfl, ?_,
    ?_⟩
  all_goals decide +kernel

end SageOS
