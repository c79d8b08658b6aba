import SageOS.CString
import SageOS.Arena

/-!
# Capabilities and the kernel state

A capability names a kernel object, or a path of the file system, together with a bitmask of
rights. Slot allocation returns the first slot whose type is `NONE` and reserves nothing: the slot
stays free until a capability is stored in it.

Threads live in 128 task slots. Their capability tables of 64 slots do not: they live in a parallel
array of 64 entries that is indexed by the thread id modulo 64. Pointers between threads are task
slots, and the message memory of an endpoint is indexed by the address of its ring.
-/
namespace SageOS

inductive IpcObjType
  | none | endpoint | channel | port | sharedMem | signalSet | monitor | file | dir
  deriving DecidableEq, Repr

def ipcCapMaxPerTask : ℕ := 64

def ipcCapRightSend : UInt32 := 1
def ipcCapRightRecv : UInt32 := 2
def ipcCapRightCall : UInt32 := 4
def ipcCapRightDup : UInt32 := 16
def ipcCapRightRevoke : UInt32 := 32
def ipcCapRightVfsRead : UInt32 := 64
def ipcCapRightVfsWrite : UInt32 := 128
def ipcCapRightsAll : UInt32 := 0xFF

def ipcCapfImmutable : UInt32 := 2

/-- The zeroed capability is the value of every field default. -/
structure IpcCapability where
  rights : UInt32 := 0
  objectType : IpcObjType := .none
  objectId : ℕ := 0
  refCount : UInt32 := 0
  ownerTask : ℕ := 0
  flags : UInt32 := 0
  path : CString 128 := strncpy 128 []
  deriving DecidableEq

namespace IpcCapability

def hasRight (cap : IpcCapability) (right : UInt32) : Prop := cap.rights &&& right ≠ 0

def isValid (cap : IpcCapability) : Prop := cap.objectType ≠ .none ∧ 0 < cap.refCount

instance (cap : IpcCapability) (right : UInt32) : Decidable (cap.hasRight right) :=
  inferInstanceAs (Decidable (_ ≠ _))

instance (cap : IpcCapability) : Decidable cap.isValid := inferInstanceAs (Decidable (_ ∧ _))

theorem not_isValid_default : ¬ ({} : IpcCapability).isValid := fun h => h.1 rfl

end IpcCapability

structure CapTable where
  caps : ℕ → IpcCapability
  nextFree : ℕ

namespace CapTable
variable (tab : CapTable)

def empty : CapTable := ⟨fun _ => {}, 0⟩

def set (i : ℕ) (cap : IpcCapability) : CapTable :=
  { tab with caps := Function.update tab.caps i cap }

def allocSlot : Option ℕ :=
  (List.range ipcCapMaxPerTask).find? (fun i => (tab.caps i).objectType = .none)

def freeSlot (handle : ℕ) : CapTable :=
  if ipcCapMaxPerTask ≤ handle then tab else tab.set handle {}

def resolve (handle : ℕ) : Option IpcCapability :=
  if handle < ipcCapMaxPerTask ∧ (tab.caps handle).isValid then some (tab.caps handle) else none

/-- The table of a new thread: slot 0 holds the root directory with both VFS rights. -/
def initial : CapTable where
  caps := Function.update (fun _ => {}) 0
    { objectType := .dir
      rights := ipcCapRightVfsRead ||| ipcCapRightVfsWrite
      refCount := 1
      path := strncpy 128 (bytes "/") }
  nextFree := 1

@[simp] theorem set_caps_self (i : ℕ) (cap : IpcCapability) : (tab.set i cap).caps i = cap := by
  simp [set]

theorem set_caps_of_ne {i j : ℕ} (hij : j ≠ i) (cap : IpcCapability) :
    (tab.set i cap).caps j = tab.caps j := by
  simp [set, hij]

theorem allocSlot_eq_some_iff {i : ℕ} :
    tab.allocSlot = some i ↔ i < ipcCapMaxPerTask ∧ (tab.caps i).objectType = .none ∧
      ∀ j < i, (tab.caps j).objectType ≠ .none := by
  unfold allocSlot
  rw [List.find?_range_eq_some]
  simp only [decide_eq_true_eq, List.mem_range, Bool.not_eq_true', decide_eq_false_iff_not]
  exact ⟨fun h => ⟨h.2.1, h.1, h.2.2⟩, fun h => ⟨h.2.1, h.1, h.2.2⟩⟩

theorem resolve_eq_some_iff {handle : ℕ} {cap : IpcCapability} : tab.resolve handle = some cap ↔
      handle < ipcCapMaxPerTask ∧ tab.caps handle = cap ∧ cap.isValid := by
  unfold resolve
  by_cases h : handle < ipcCapMaxPerTask ∧ (tab.caps handle).isValid
  · rw [if_pos h, Option.some_inj]
    exact ⟨fun he => ⟨h.1, he, he ▸ h.2⟩, fun he => he.2.1⟩
  · rw [if_neg h]
    constructor
    · intro he
      cases he
    · rintro ⟨hlt, rfl, hvalid⟩
      exact absurd ⟨hlt, hvalid⟩ h

end CapTable

def maxTasks : ℕ := 128

def schedMaxThreads : ℕ := 64

def maxFd : ℕ := 32

def schedStackSize : ℕ := 65536

def permVfsCapOnly : UInt32 := 32

inductive ThreadState
  | unused | ready | running | sleeping | blocked | terminated
  deriving DecidableEq, Repr

inductive ThreadPriority
  | low | normal | high | critical
  deriving DecidableEq, Repr

structure FdEntry where
  valid : Bool := false
  path : CString 256 := strncpy 256 []
  flags : UInt32 := 0
  offset : ℤ := 0
  deriving DecidableEq

/-- The zeroed thread is the value of every field default. -/
structure Thread where
  id : ℕ := 0
  state : ThreadState := .unused
  priority : ThreadPriority := .low
  stackBase : ℕ := 0
  stackTop : ℕ := 0
  next : Option ℕ := none
  name : CString 32 := strncpy 32 []
  fdTable : ℕ → FdEntry := fun _ => {}
  heapEnd : ℕ := 0
  heapBase : ℕ := 0
  heapLimit : ℕ := 0
  parent : Option ℕ := none
  cwd : CString 256 := strncpy 256 []
  elfBase : ℕ := 0
  elfSize : ℕ := 0
  savedElfData : Option ℕ := none
  exitCode : ℤ := 0
  permissions : UInt32 := 0

inductive IpcLifecycleState
  | constructed | active | paused | draining | dead
  deriving DecidableEq, Repr

def ipcMaxEndpoints : ℕ := 128

def ipcMaxPorts : ℕ := 32

def ipcMaxNsEntries : ℕ := 256

/-- A message: the header fields, 4096 bytes of payload and 8 capability handles. -/
structure IpcMsg where
  magic : ℕ := 0
  type : ℕ := 0
  senderTask : ℕ := 0
  senderCap : ℕ := 0
  flags : UInt32 := 0
  payloadLen : ℕ := 0
  capCount : ℕ := 0
  payload : Bytes := []
  caps : ℕ → ℕ := fun _ => 0

structure IpcEndpoint where
  id : ℕ := 0
  type : IpcObjType := .none
  state : IpcLifecycleState := .constructed
  msgRing : Option ℕ := none
  ringSize : ℕ := 0
  head : ℕ := 0
  tail : ℕ := 0
  msgCount : ℕ := 0
  peerCap : ℕ := 0
  boundTask : ℕ := 0
  waitHead : Option ℕ := none
  waitTail : Option ℕ := none
  msgsSent : ℕ := 0
  msgsRecv : ℕ := 0
  bytesMoved : ℕ := 0
  drops : ℕ := 0

structure IpcPort where
  id : ℕ := 0
  type : IpcObjType := .none
  state : IpcLifecycleState := .constructed
  ownerTask : ℕ := 0
  backlog : ℕ := 0
  pendingCount : ℕ := 0
  waitHead : Option ℕ := none
  waitTail : Option ℕ := none

structure IpcSharedMem where
  id : ℕ := 0
  state : IpcLifecycleState := .constructed

structure IpcNsEntry where
  name : CString 64 := strncpy 64 []
  capHandle : ℕ := 0
  ownerTaskId : ℕ := 0
  child : Option ℕ := none
  sibling : Option ℕ := none

structure Kernel where
  tasks : ℕ → Thread := fun _ => {}
  current : ℕ := 0
  nextPid : ℕ := 1
  ipcExt : ℕ → CapTable := fun _ => CapTable.empty
  endpoints : ℕ → IpcEndpoint := fun _ => {}
  ports : ℕ → IpcPort := fun _ => {}
  shm : ℕ → IpcSharedMem := fun _ => {}
  nsEntries : ℕ → IpcNsEntry := fun _ => {}
  nsRoot : Option ℕ := none
  nsCount : ℕ := 0
  ringMem : ℕ → ℕ → IpcMsg := fun _ _ => {}
  arena : Arena := Arena.empty

namespace Kernel
variable (k : Kernel)

def setTask (i : ℕ) (t : Thread) : Kernel := { k with tasks := Function.update k.tasks i t }

def modifyTask (i : ℕ) (f : Thread → Thread) : Kernel := k.setTask i (f (k.tasks i))

def extIndex (i : ℕ) : ℕ := (k.tasks i).id % schedMaxThreads

/-- `task_ipc_cap_table` of the thread in slot `i`. -/
def capTable (i : ℕ) : CapTable := k.ipcExt (k.extIndex i)

def setCapTable (i : ℕ) (tab : CapTable) : Kernel :=
  { k with ipcExt := Function.update k.ipcExt (k.extIndex i) tab }

@[simp] theorem setTask_self (i : ℕ) (t : Thread) : (k.setTask i t).tasks i = t := by
  simp [setTask]

theorem setTask_of_ne {i j : ℕ} (hij : j ≠ i) (t : Thread) :
    (k.setTask i t).tasks j = k.tasks j := by
  simp [setTask, hij]

theorem id_modifyTask (i : ℕ) {f : Thread → Thread} (hf : ∀ t, (f t).id = t.id) (j : ℕ) :
    ((k.modifyTask i f).tasks j).id = (k.tasks j).id := by
  by_cases hj : j = i
  · subst hj
    simp only [modifyTask, setTask_self, hf]
  · simp only [modifyTask, setTask_of_ne k hj]

@[simp] theorem setCapTable_capTable_self (i : ℕ) (tab : CapTable) :
    (k.setCapTable i tab).capTable i = tab := by
  simp [setCapTable, capTable, extIndex]

theorem setCapTable_capTable_of_ne {i j : ℕ} (hij : k.extIndex j ≠ k.extIndex i)
    (tab : CapTable) : (k.setCapTable i tab).capTable j = k.capTable j := by
  change Function.update k.ipcExt (k.extIndex i) tab (k.extIndex j) = k.ipcExt (k.extIndex j)
  rw [Function.update_of_ne hij]

end Kernel
end SageOS
