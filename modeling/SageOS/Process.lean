import SageOS.FileSyscalls
import SageOS.Scheduler

/-!
# Creating processes

`sys_vfork` makes a thread that shares the caller's descriptors and heap bounds and runs in its
place while the caller is blocked. `os_spawn_task` makes a thread for a script, sets
`PERM_VFS_CAP_ONLY` on it and copies the caller's capability slots into its table, after the
scheduler has initialised that table.
-/
namespace SageOS.Kernel
variable (k : Kernel)

/-- The slot of the child; `none` when there is no free slot, which the caller sees as
`-VFS_ENOSPC`. -/
def sysVfork : Option ℕ × Kernel :=
  match k.schedCreateThread (bytes "vfork_child") (k.tasks k.current).priority with
  | none => (none, k)
  | some (c, k₁) =>
    let parent := k₁.tasks k.current
    let k₂ := k₁.modifyTask c fun t =>
      { t with
        parent := some k.current
        fdTable := parent.fdTable
        heapBase := parent.heapBase
        heapLimit := parent.heapLimit
        heapEnd := parent.heapEnd }
    let k₃ := k₂.modifyTask k.current fun t => { t with state := .blocked }
    (some c, { k₃.modifyTask c fun t => { t with state := .running } with current := c })

def copySlots (dst src : CapTable) : CapTable :=
  ⟨fun i => if i < ipcCapMaxPerTask then src.caps i else dst.caps i, src.nextFree⟩

/-- The code or thread id that is returned, and the slot of the new task. -/
def osSpawnTask (name path : Bytes) : ℤ × Option ℕ × Kernel :=
  match k.arena.sageMalloc (path.length + 1) with
  | none => (-2, none, k)
  | some (ptr, a) =>
    match ({ k with arena := a } : Kernel).schedCreateThread name .normal with
    | none => (-3, none, { k with arena := a.sageFree ptr })
    | some (c, k₁) =>
      let k₂ := k₁.modifyTask c fun t => { t with permissions := t.permissions ||| permVfsCapOnly }
      (k.nextPid, some c,
        k₂.setCapTable c (copySlots (k₂.capTable c) (k₂.capTable k₂.current)))

variable {k} {k' : Kernel} {c : ℕ}

/-- Success of `sys_vfork`: the child is a new thread in `c` with no permission bit and the
initial table, and the states of the caller and the child are exchanged. -/
theorem sysVfork_eq_some (h : k.sysVfork = (some c, k')) :
    ∃ k₁, Created k c k₁ ∧ (k'.tasks c).permissions = 0 ∧ k'.ipcExt = k₁.ipcExt ∧
      (∀ j, (k'.tasks j).id = (k₁.tasks j).id) ∧
      ∀ j, j ≠ k.current → ((k'.tasks j).state = .unused ↔ (k₁.tasks j).state = .unused) := by
  unfold sysVfork at h
  cases hc : k.schedCreateThread (bytes "vfork_child") (k.tasks k.current).priority with
  | none => simp [hc] at h
  | some r =>
    obtain ⟨c', k₁⟩ := r
    have hcr := k.schedCreateThread_created hc
    simp only [hc, Prod.mk.injEq, Option.some.injEq] at h
    obtain ⟨rfl, rfl⟩ := h
    refine ⟨k₁, hcr, ?_, rfl, fun j => ?_, fun j hj => ?_⟩
    · by_cases hcur : k.current = c'
      · simp [modifyTask, setTask, hcur, hcr.permissions]
      · simp [modifyTask, setTask, Ne.symm hcur, hcr.permissions]
    · rw [id_modifyTask, id_modifyTask, id_modifyTask]
      all_goals exact fun _ => rfl
    · by_cases hjc : j = c'
      · simp [modifyTask, setTask, hjc, hcr.state]
      · simp [modifyTask, setTask, hjc, hj]

theorem sysVfork_of_firstUnused_eq_none (h : k.firstUnused = none) : k.sysVfork = (none, k) := by
  simp [sysVfork, schedCreateThread, h]

theorem eq_of_sysVfork_eq_none (h : k.sysVfork = (none, k')) : k' = k := by
  unfold sysVfork at h
  cases hc : k.schedCreateThread (bytes "vfork_child") (k.tasks k.current).priority with
  | none => simpa [hc] using h.symm
  | some r => simp [hc] at h

/-- Success of `os_spawn_task`, when the caller's table is not the one being initialised. -/
structure Spawned (k : Kernel) (c : ℕ) (k' : Kernel) : Prop where
  unused : (k.tasks c).state = .unused
  id : (k'.tasks c).id = k.nextPid
  state : (k'.tasks c).state = .ready
  capOnly : (k'.tasks c).capOnly
  frame : ∀ j, j ≠ c → k'.tasks j = k.tasks j
  caps : k.current ≠ c → k.extIndex k.current ≠ k.nextPid % schedMaxThreads →
    ∀ i < ipcCapMaxPerTask, (k'.capTable c).caps i = (k.capTable k.current).caps i
  tables : ∀ j, j ≠ c → k.extIndex j ≠ k.nextPid % schedMaxThreads →
    k'.capTable j = k.capTable j

theorem spawned_of_created {k₁ : Kernel} (hcr : Created k c k₁) :
    let k₂ := k₁.modifyTask c fun t => { t with permissions := t.permissions ||| permVfsCapOnly }
    Spawned k c (k₂.setCapTable c (copySlots (k₂.capTable c) (k₂.capTable k₂.current))) := by
  intro k₂
  have hext : ∀ j, k₂.extIndex j = k₁.extIndex j := by
    intro j
    by_cases hj : j = c
    · subst hj
      simp [k₂, extIndex, modifyTask]
    · simp [k₂, extIndex, modifyTask, setTask_of_ne _ hj]
  have htab : ∀ j, k₂.capTable j = k₁.capTable j := by
    intro j
    unfold capTable
    rw [hext]
    rfl
  refine ⟨hcr.unused, ?_, ?_, ?_, ?_, ?_, ?_⟩
  · simp [k₂, setCapTable, modifyTask, hcr.id]
  · simp [k₂, setCapTable, modifyTask, hcr.state]
  · simp [k₂, setCapTable, modifyTask, Thread.capOnly, hcr.permissions, permVfsCapOnly]
  · intro j hj
    change (k₁.setTask c _).tasks j = k.tasks j
    rw [setTask_of_ne _ hj, hcr.frame j hj]
  · intro hcur hne i hi
    rw [setCapTable_capTable_self]
    change (if i < ipcCapMaxPerTask then (k₂.capTable k₁.current).caps i else _) = _
    rw [if_pos hi, htab, hcr.current, hcr.capTable_of_ne hcur hne]
  · intro j hj hne
    have hidx : k₁.extIndex j = k.extIndex j := by
      unfold extIndex
      rw [hcr.frame j hj]
    rw [setCapTable_capTable_of_ne, htab, hcr.capTable_of_ne hj hne]
    rw [hext, hext, hcr.extIndex_self, hidx]
    exact hne

theorem osSpawnTask_spec {name path : Bytes} {code : ℤ} {child : Option ℕ}
    (h : k.osSpawnTask name path = (code, child, k')) :
    (child = none ∧ k'.tasks = k.tasks ∧ k'.ipcExt = k.ipcExt) ∨
      ∃ c, child = some c ∧ Spawned k c k' := by
  unfold osSpawnTask at h
  cases ha : k.arena.sageMalloc (path.length + 1) with
  | none =>
    rw [ha] at h
    cases h
    exact .inl ⟨rfl, rfl, rfl⟩
  | some r =>
    obtain ⟨ptr, a⟩ := r
    simp only [ha] at h
    cases hc : ({ k with arena := a } : Kernel).schedCreateThread name .normal with
    | none =>
      rw [hc] at h
      cases h
      exact .inl ⟨rfl, rfl, rfl⟩
    | some r =>
      rw [hc] at h
      cases h
      have hcr := schedCreateThread_created _ hc
      exact .inr ⟨r.1, rfl, spawned_of_created ⟨hcr.lt, hcr.unused, hcr.id, hcr.state,
        hcr.permissions, hcr.frame, hcr.ipcExt, hcr.current, hcr.nextPid⟩⟩

end SageOS.Kernel
