import SageOS.Kernel

/-!
# Threads and the scheduler

Creation takes the first unused task slot, gives the thread the next id and a fresh capability
table that holds the root directory, and allocates its stack. Scheduling is round robin over the
ready and running threads; leaving a thread wakes every blocked one.
-/
namespace SageOS
namespace Kernel
variable (k : Kernel)

def firstUnused : Option ℕ :=
  (List.range maxTasks).find? (fun i => (k.tasks i).state = .unused)

def schedIpcInitThread (i : ℕ) : Kernel := k.setCapTable i CapTable.initial

/-- The stack pointer is set up from the block even when there is none. -/
def allocThreadStack (i : ℕ) : Kernel :=
  let m := k.arena.sageMalloc schedStackSize
  { k with arena := m.elim k.arena (·.2) }.modifyTask i fun t =>
    { t with stackBase := m.elim 0 (·.1), stackTop := m.elim 0 (·.1) + schedStackSize }

def newThread (name : Bytes) (priority : ThreadPriority) : Thread where
  id := k.nextPid
  state := .ready
  priority := priority
  name := strncpy 32 name
  cwd := strncpy 256 (bytes "/")

def schedCreateThread (name : Bytes) (priority : ThreadPriority) : Option (ℕ × Kernel) :=
  k.firstUnused.map fun i =>
    let k₁ := { k.setTask i (k.newThread name priority) with nextPid := (k.nextPid + 1) % 2 ^ 32 }
    (i, (k₁.schedIpcInitThread i).allocThreadStack i)

def idleThread : Thread where
  id := 0
  state := .running
  priority := .low
  name := strncpy 32 (bytes "idle")
  cwd := strncpy 256 (bytes "/")

def schedInit : Kernel :=
  { k with
    tasks := Function.update (fun _ => {}) 0 idleThread
    ipcExt := Function.update k.ipcExt 0 CapTable.initial
    current := 0 }

def ipcSubsystemInit : Kernel :=
  { k with
    ipcExt := fun _ => CapTable.empty
    endpoints := fun i => { id := i, state := .dead }
    ports := fun i => { id := i, state := .dead }
    shm := fun i => { id := i, state := .dead }
    nsEntries := fun _ => {}
    nsRoot := none
    nsCount := 0 }

/-- The state after boot: the scheduler is initialised before the IPC subsystem. -/
def boot : Kernel := ({} : Kernel).schedInit.ipcSubsystemInit

def runnable (i : ℕ) : Prop := (k.tasks i).state = .ready ∨ (k.tasks i).state = .running

instance (i : ℕ) : Decidable (k.runnable i) := inferInstanceAs (Decidable (_ ∨ _))

/-- Round robin: the first runnable slot after the current one, the current one last. -/
def schedNext : Option ℕ :=
  ((List.range maxTasks).map fun i => (k.current + (i + 1)) % maxTasks).find? fun i => k.runnable i

/-- With no runnable thread the scheduler polls for interrupts, which changes no thread. -/
def schedSchedule : Kernel :=
  match k.schedNext with
  | none => k
  | some n =>
    if n = k.current then k
    else
      let k₁ := if (k.tasks k.current).state = .running then
          k.modifyTask k.current fun t => { t with state := .ready }
        else k
      { k₁.modifyTask n fun t => { t with state := .running } with current := n }

def wakeAll : Kernel :=
  { k with tasks := fun i =>
      if i < maxTasks ∧ (k.tasks i).state = .blocked then { k.tasks i with state := .ready }
      else k.tasks i }

def schedExit : Kernel :=
  ((k.modifyTask k.current fun t => { t with state := .terminated }).wakeAll).schedSchedule

def schedBlock : Kernel :=
  (k.modifyTask k.current fun t => { t with state := .blocked }).schedSchedule

def schedUnblock (i : ℕ) : Kernel :=
  if (k.tasks i).state = .blocked then k.modifyTask i fun t => { t with state := .ready } else k

def schedGetThreadById (id : ℕ) : Option ℕ :=
  (List.range maxTasks).find? fun i => (k.tasks i).id = id ∧ (k.tasks i).state ≠ .unused

theorem firstUnused_eq_some_iff {i : ℕ} :
    k.firstUnused = some i ↔ i < maxTasks ∧ (k.tasks i).state = .unused ∧
      ∀ j < i, (k.tasks j).state ≠ .unused := by
  unfold firstUnused
  rw [List.find?_range_eq_some]
  simp only [decide_eq_true_eq, List.mem_range, Bool.not_eq_true', decide_eq_false_iff_not]
  exact ⟨fun h => ⟨h.2.1, h.1, h.2.2⟩, fun h => ⟨h.2.1, h.1, h.2.2⟩⟩

/-- Nothing but threads and the choice of the current one is written. -/
def OnlyThreads (k k' : Kernel) : Prop := ∃ ts n, k' = { k with tasks := ts, current := n }

namespace OnlyThreads
variable {k} {k' k'' : Kernel}

theorem trans (h : OnlyThreads k k') (h' : OnlyThreads k' k'') : OnlyThreads k k'' := by
  obtain ⟨ts, n, rfl⟩ := h
  obtain ⟨ts', n', rfl⟩ := h'
  exact ⟨ts', n', rfl⟩

theorem modifyTask (k : Kernel) (i : ℕ) (f : Thread → Thread) : OnlyThreads k (k.modifyTask i f) :=
  ⟨_, _, rfl⟩

theorem schedSchedule (k : Kernel) : OnlyThreads k k.schedSchedule := by
  unfold Kernel.schedSchedule
  cases k.schedNext with
  | none => exact ⟨_, _, rfl⟩
  | some n =>
    dsimp only
    split_ifs <;> exact ⟨_, _, rfl⟩

theorem schedBlock (k : Kernel) : OnlyThreads k k.schedBlock :=
  (modifyTask k _ _).trans (schedSchedule _)

theorem schedUnblock (k : Kernel) (i : ℕ) : OnlyThreads k (k.schedUnblock i) := by
  unfold Kernel.schedUnblock
  split_ifs <;> exact ⟨_, _, rfl⟩

theorem ipcExt (h : OnlyThreads k k') : k'.ipcExt = k.ipcExt := by
  obtain ⟨ts, n, rfl⟩ := h
  rfl

theorem endpoints (h : OnlyThreads k k') : k'.endpoints = k.endpoints := by
  obtain ⟨ts, n, rfl⟩ := h
  rfl

end OnlyThreads

/-- What creating a thread in slot `i` does to the parts of the state that tables depend on. -/
structure Created (k : Kernel) (i : ℕ) (k' : Kernel) : Prop where
  lt : i < maxTasks
  unused : (k.tasks i).state = .unused
  id : (k'.tasks i).id = k.nextPid
  state : (k'.tasks i).state = .ready
  permissions : (k'.tasks i).permissions = 0
  frame : ∀ j, j ≠ i → k'.tasks j = k.tasks j
  ipcExt : k'.ipcExt = Function.update k.ipcExt (k.nextPid % schedMaxThreads) CapTable.initial
  current : k'.current = k.current
  nextPid : k'.nextPid = (k.nextPid + 1) % 2 ^ 32

theorem schedCreateThread_created {name : Bytes} {priority : ThreadPriority} {i : ℕ} {k' : Kernel}
    (h : k.schedCreateThread name priority = some (i, k')) : Created k i k' := by
  obtain ⟨j, hj, he⟩ := Option.map_eq_some_iff.mp h
  obtain ⟨rfl, rfl⟩ := Prod.mk.inj he
  obtain ⟨hlt, hunused, _⟩ := (k.firstUnused_eq_some_iff).mp hj
  refine ⟨hlt, hunused, ?_, ?_, ?_, ?_, ?_, rfl, rfl⟩
  · simp [allocThreadStack, schedIpcInitThread, modifyTask, setTask, setCapTable, newThread]
  · simp [allocThreadStack, schedIpcInitThread, modifyTask, setTask, setCapTable, newThread]
  · simp [allocThreadStack, schedIpcInitThread, modifyTask, setTask, setCapTable, newThread]
  · intro m hm
    simp [allocThreadStack, schedIpcInitThread, modifyTask, setTask, setCapTable, hm]
  · simp [allocThreadStack, schedIpcInitThread, modifyTask, setTask, setCapTable, extIndex,
      newThread]

namespace Created
variable {k} {k' : Kernel} {i : ℕ}

theorem extIndex_self (h : Created k i k') : k'.extIndex i = k.nextPid % schedMaxThreads := by
  unfold extIndex
  rw [h.id]

/-- Another thread keeps its table exactly when its id is not congruent to the new one. -/
theorem capTable_of_ne (h : Created k i k') {j : ℕ} (hj : j ≠ i)
    (hext : k.extIndex j ≠ k.nextPid % schedMaxThreads) : k'.capTable j = k.capTable j := by
  have hidx : k'.extIndex j = k.extIndex j := by
    unfold extIndex
    rw [h.frame j hj]
  unfold capTable
  rw [hidx, h.ipcExt, Function.update_of_ne hext]

end Created
end Kernel
end SageOS
