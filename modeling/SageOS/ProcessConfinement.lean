import SageOS.GuardedRun
import SageOS.Process
import SageOS.VfsConfinement

/-!
# Confinement across process creation

A family is a task and the tasks it and its descendants create. Each creation records the table
of the creator at that moment. The run lemma follows every family through any sequence of
`sys_vfork`, `os_spawn_task` and `sys_execve`: descendants keep `PERM_VFS_CAP_ONLY` and hold
nothing their creator did not hold, as long as no `sys_vfork` succeeds and no new id selects the
table of the creator or of a descendant.
-/
namespace SageOS
open List Option Kernel
variable {σ : Type}
namespace IpcCapability

def isVfs (cap : IpcCapability) : Prop :=
  cap.isValid ∧ (cap.objectType = .dir ∨ cap.objectType = .file)

instance (cap : IpcCapability) : Decidable cap.isVfs := inferInstanceAs (Decidable (_ ∧ _))

/-- `c` gives no right to a path that `d` does not give. -/
def Within (c d : IpcCapability) : Prop :=
  d.isVfs ∧ (∀ right ∈ [ipcCapRightVfsRead, ipcCapRightVfsWrite],
      c.hasRight right → d.hasRight right) ∧
    (d.objectType = .dir ∧ components (vfsNormalizePath d.path.chars) <+:
        components (vfsNormalizePath c.path.chars) ∨
      d.objectType = .file ∧ c.objectType = .file ∧
        vfsNormalizePath c.path.chars = vfsNormalizePath d.path.chars)

instance (c d : IpcCapability) : Decidable (c.Within d) := inferInstanceAs (Decidable (_ ∧ _))

theorem Within.refl {c : IpcCapability} (hc : c.isVfs) : c.Within c := by
  refine ⟨hc, fun _ _ h => h, ?_⟩
  rcases hc.2 with hdir | hfile
  · exact .inl ⟨hdir, prefix_rfl⟩
  · exact .inr ⟨hfile, hfile, rfl⟩

end IpcCapability

/-- The fields of the state that decide what a task may do. -/
structure SameAuthority (k k' : Kernel) : Prop where
  id : ∀ j, (k'.tasks j).id = (k.tasks j).id
  state : ∀ j, (k'.tasks j).state = (k.tasks j).state
  permissions : ∀ j, (k'.tasks j).permissions = (k.tasks j).permissions
  ipcExt : k'.ipcExt = k.ipcExt

namespace SameAuthority
variable {k k' k'' : Kernel}

theorem refl (k : Kernel) : SameAuthority k k := ⟨fun _ => rfl, fun _ => rfl, fun _ => rfl, rfl⟩

theorem trans (h : SameAuthority k k') (h' : SameAuthority k' k'') : SameAuthority k k'' where
  id j := (h'.id j).trans (h.id j)
  state j := (h'.state j).trans (h.state j)
  permissions j := (h'.permissions j).trans (h.permissions j)
  ipcExt := h'.ipcExt.trans h.ipcExt

theorem of_arena (k : Kernel) (a : Arena) : SameAuthority k { k with arena := a } :=
  ⟨fun _ => rfl, fun _ => rfl, fun _ => rfl, rfl⟩

theorem modifyTask (k : Kernel) (i : ℕ) (f : Thread → Thread)
    (hf : ∀ t, (f t).id = t.id ∧ (f t).state = t.state ∧ (f t).permissions = t.permissions) :
    SameAuthority k (k.modifyTask i f) := by
  have hj (j : ℕ) : ((k.modifyTask i f).tasks j).id = (k.tasks j).id ∧
      ((k.modifyTask i f).tasks j).state = (k.tasks j).state ∧
      ((k.modifyTask i f).tasks j).permissions = (k.tasks j).permissions := by
    by_cases hji : j = i
    · subst hji
      simpa only [Kernel.modifyTask, setTask_self] using hf (k.tasks j)
    · simp only [Kernel.modifyTask, setTask_of_ne _ hji, and_self]
  exact ⟨fun j => (hj j).1, fun j => (hj j).2.1, fun j => (hj j).2.2, rfl⟩

theorem capTable (h : SameAuthority k k') (j : ℕ) : k'.capTable j = k.capTable j := by
  unfold Kernel.capTable Kernel.extIndex
  rw [h.ipcExt, h.id]

theorem capOnly (h : SameAuthority k k') {j : ℕ} (hj : (k.tasks j).capOnly) :
    (k'.tasks j).capOnly := by
  unfold Thread.capOnly
  rw [h.permissions]
  exact hj

end SameAuthority

theorem saveParentImage_sameAuthority (k : Kernel) (t : ℕ) :
    SameAuthority k (Elf.saveParentImage k t) := by
  unfold Elf.saveParentImage
  cases (k.tasks t).parent with
  | none => exact .refl k
  | some p =>
    dsimp only
    split_ifs
    · cases k.arena.sageMalloc (k.tasks p).elfSize with
      | none => exact .refl k
      | some r =>
        exact (SameAuthority.of_arena k r.2).trans (.modifyTask _ p _ fun _ => ⟨rfl, rfl, rfl⟩)
    · exact .refl k

/-- Loading a program changes neither the permissions nor the capabilities of any task. -/
theorem sysExecve_sameAuthority (v : Vfs σ) (s : Sys σ) (machine : ℕ) (path : CStr)
    (argc envc : ℕ) (st : VfsStat) :
    SameAuthority s.kernel (s.sysExecve v machine path argc envc st).2.kernel := by
  unfold Sys.sysExecve
  by_cases hneg : (v.vfsStat path.chars st s.vfs).1 < 0
  · rw [if_pos hneg]
    exact .refl _
  · rw [if_neg hneg]
    cases s.kernel.arena.sageMalloc (v.vfsStat path.chars st s.vfs).2.1.size with
    | none => exact .refl _
    | some r =>
      obtain ⟨ptr, a⟩ := r
      dsimp only
      split
      · exact .of_arena _ _
      · have hsave := (SameAuthority.of_arena s.kernel a).trans
          (saveParentImage_sameAuthority _ s.kernel.current)
        have hspan (data : Bytes) := hsave.trans
          (.modifyTask _ s.kernel.current (Elf.recordSpan data) fun _ => ⟨rfl, rfl, rfl⟩)
        exact (hspan _).trans (.of_arena _ _)

structure Birth where
  child : ℕ
  creatorTable : CapTable

structure Family (σ : Type) where
  sys : Sys σ
  root : ℕ
  births : List Birth

inductive ProcOp
  | vfork
  | spawn (name path : Bytes)
  | execve (machine : ℕ) (path : CStr) (argc envc : ℕ) (st : VfsStat)

structure ProcEvent where
  actor : ℕ
  op : ProcOp

namespace Family
variable (v : Vfs σ) (fam : Family σ)

def start (s : Sys σ) : Family σ := ⟨s, s.kernel.current, []⟩

def descendants : List ℕ := fam.births.map (·.child)

def switchTo (actor : ℕ) : Sys σ :=
  { fam.sys with kernel := { fam.sys.kernel with current := actor } }

/-- A creation: the new kernel and, on success, the child with the creator's table. -/
def record (actor : ℕ) (child : Option ℕ) (k : Kernel) : Family σ :=
  { fam with
    sys := { fam.sys with kernel := k }
    births := fam.births ++ (child.map fun c => ⟨c, fam.sys.kernel.capTable actor⟩).toList }

/-- A member of the family is scheduled and performs one operation. -/
def step (e : ProcEvent) : Family σ :=
  if e.actor = fam.root ∨ e.actor ∈ fam.descendants then
    match e.op with
    | .vfork =>
      let r := (fam.switchTo e.actor).kernel.sysVfork
      fam.record e.actor r.1 r.2
    | .spawn name path =>
      let r := (fam.switchTo e.actor).kernel.osSpawnTask name path
      fam.record e.actor r.2.1 r.2.2
    | .execve machine path argc envc st =>
      { fam with sys := ((fam.switchTo e.actor).sysExecve v machine path argc envc st).2 }
  else fam

/-- Every descendant is confined, to no more than its creator held when it created it. -/
def Inherits : Prop :=
  ∀ b ∈ fam.births, (fam.sys.kernel.tasks b.child).capOnly ∧
    ∀ i < ipcCapMaxPerTask, ((fam.sys.kernel.capTable b.child).caps i).isVfs →
      ∃ j < ipcCapMaxPerTask,
        ((fam.sys.kernel.capTable b.child).caps i).Within (b.creatorTable.caps j)

instance : Decidable fam.Inherits := inferInstanceAs (Decidable (∀ b ∈ fam.births, _))

/-- No `sys_vfork` finds a free slot, and the id of a spawned task does not select the table of
its creator or of a descendant. -/
def Safe (e : ProcEvent) : Prop :=
  match e.op with
  | .vfork => fam.sys.kernel.firstUnused = none
  | .spawn .. => ∀ m ∈ e.actor :: fam.descendants,
      fam.sys.kernel.extIndex m ≠ fam.sys.kernel.nextPid % schedMaxThreads
  | .execve .. => True

instance (e : ProcEvent) : Decidable (fam.Safe e) :=
  match e with
  | ⟨_, .vfork⟩ => inferInstanceAs (Decidable (_ = _))
  | ⟨actor, .spawn ..⟩ => inferInstanceAs (Decidable (∀ m ∈ actor :: fam.descendants, _))
  | ⟨_, .execve ..⟩ => .isTrue trivial

/-- The invariant: every descendant still has the slots its creator had. -/
structure Copied : Prop where
  root_live : (fam.sys.kernel.tasks fam.root).state ≠ .unused
  live : ∀ b ∈ fam.births, (fam.sys.kernel.tasks b.child).state ≠ .unused
  capOnly : ∀ b ∈ fam.births, (fam.sys.kernel.tasks b.child).capOnly
  caps : ∀ b ∈ fam.births, ∀ i < ipcCapMaxPerTask,
    (fam.sys.kernel.capTable b.child).caps i = b.creatorTable.caps i

variable {v fam}

theorem Copied.inherits (h : fam.Copied) : fam.Inherits := by
  intro b hb
  refine ⟨h.capOnly b hb, fun i hi hvfs => ⟨i, hi, ?_⟩⟩
  rw [h.caps b hb i hi] at hvfs ⊢
  exact .refl hvfs

theorem Copied.of_sameAuthority (h : fam.Copied) {s : Sys σ}
    (hs : SameAuthority fam.sys.kernel s.kernel) : ({ fam with sys := s } : Family σ).Copied where
  root_live := by
    rw [hs.state]
    exact h.root_live
  live b hb := by
    rw [hs.state]
    exact h.live b hb
  capOnly b hb := hs.capOnly (h.capOnly b hb)
  caps b hb i hi := by
    rw [hs.capTable]
    exact h.caps b hb i hi

variable {actor : ℕ}

theorem Copied.actor_live (h : fam.Copied) (ha : actor = fam.root ∨ actor ∈ fam.descendants) :
    (fam.sys.kernel.tasks actor).state ≠ .unused := by
  rcases ha with rfl | hmem
  · exact h.root_live
  · obtain ⟨b, hb, rfl⟩ := mem_map.mp hmem
    exact h.live b hb

theorem Copied.record_none (h : fam.Copied) {k : Kernel}
    (htasks : k.tasks = fam.sys.kernel.tasks) (hext : k.ipcExt = fam.sys.kernel.ipcExt) :
    (fam.record actor none k).Copied := by
  have hk : SameAuthority fam.sys.kernel k := by
    constructor <;> simp [htasks, hext]
  have hcopied := h.of_sameAuthority (s := { fam.sys with kernel := k }) hk
  simpa only [record, map_none, toList_none, append_nil] using hcopied

theorem Copied.record_spawned (h : fam.Copied) {actor c : ℕ} {k : Kernel}
    (ha : actor = fam.root ∨ actor ∈ fam.descendants)
    (hsafe : ∀ m ∈ actor :: fam.descendants,
      fam.sys.kernel.extIndex m ≠ fam.sys.kernel.nextPid % schedMaxThreads)
    (hk : Kernel.Spawned (fam.switchTo actor).kernel c k) :
    (fam.record actor (some c) k).Copied := by
  have hne (m : ℕ) (hm : (fam.sys.kernel.tasks m).state ≠ .unused) : m ≠ c := by
    rintro rfl
    exact hm hk.unused
  have hframe (m : ℕ) (hm : (fam.sys.kernel.tasks m).state ≠ .unused) :
      k.tasks m = fam.sys.kernel.tasks m := hk.frame m (hne m hm)
  have hmem (b : Birth) (hb : b ∈ (fam.record actor (some c) k).births) :
      b ∈ fam.births ∨ b = ⟨c, fam.sys.kernel.capTable actor⟩ := by
    simpa [record] using hb
  have hold (b : Birth) (hb : b ∈ fam.births) :
      k.capTable b.child = fam.sys.kernel.capTable b.child :=
    hk.tables b.child (hne _ (h.live b hb)) (hsafe b.child (mem_cons_of_mem _ (mem_map_of_mem hb)))
  have hnew (i : ℕ) (hi : i < ipcCapMaxPerTask) :
      (k.capTable c).caps i = (fam.sys.kernel.capTable actor).caps i :=
    hk.caps (hne actor (h.actor_live ha)) (hsafe actor mem_cons_self) i hi
  refine ⟨?_, ?_, ?_, ?_⟩
  · change (k.tasks fam.root).state ≠ .unused
    rw [hframe _ h.root_live]
    exact h.root_live
  · intro b hb
    change (k.tasks b.child).state ≠ .unused
    rcases hmem b hb with hb | rfl
    · rw [hframe _ (h.live b hb)]
      exact h.live b hb
    · rw [hk.state]
      decide
  · intro b hb
    change (k.tasks b.child).capOnly
    rcases hmem b hb with hb | rfl
    · rw [hframe _ (h.live b hb)]
      exact h.capOnly b hb
    · exact hk.capOnly
  · intro b hb i hi
    change (k.capTable b.child).caps i = b.creatorTable.caps i
    rcases hmem b hb with hb | rfl
    · rw [hold b hb]
      exact h.caps b hb i hi
    · exact hnew i hi

theorem Copied.step (h : fam.Copied) (e : ProcEvent) (hsafe : fam.Safe e) :
    (fam.step v e).Copied := by
  obtain ⟨actor, op⟩ := e
  unfold Family.step
  by_cases ha : actor = fam.root ∨ actor ∈ fam.descendants
  · rw [if_pos ha]
    cases op with
    | vfork =>
      have hfull : (fam.switchTo actor).kernel.firstUnused = none := hsafe
      simp only [sysVfork_of_firstUnused_eq_none hfull]
      exact h.record_none rfl rfl
    | spawn name path =>
      dsimp only
      rcases hr : (fam.switchTo actor).kernel.osSpawnTask name path with ⟨code, child, k⟩
      rcases osSpawnTask_spec hr with ⟨rfl, htasks, hext⟩ | ⟨c, rfl, hspawned⟩
      · exact h.record_none htasks hext
      · exact h.record_spawned ha hsafe hspawned
    | execve machine path argc envc st =>
      have hswitch : SameAuthority fam.sys.kernel (fam.switchTo actor).kernel :=
        ⟨fun _ => rfl, fun _ => rfl, fun _ => rfl, rfl⟩
      exact h.of_sameAuthority
        (hswitch.trans (sysExecve_sameAuthority v _ machine path argc envc st))
  · rw [if_neg ha]
    exact h

/-- In every run whose steps are safe, every descendant is confined to what its creator held. -/
theorem inherits_of_safe_run (v : Vfs σ) (s : Sys σ) (hlive : s.task.state = .running)
    (es : List ProcEvent) (hes : GuardedRun.Guarded (Family.step v) Family.Safe (start s) es) :
    (GuardedRun.run (Family.step v) (start s) es).Inherits := by
  have hstart : (start s).Copied := by
    refine ⟨?_, ?_, ?_, ?_⟩
    · change s.task.state ≠ .unused
      rw [hlive]
      decide
    all_goals
      intro b hb
      exact absurd hb not_mem_nil
  exact (GuardedRun.invariant_run (fun _ e h hsafe => h.step e hsafe) hstart hes).inherits

def homeSys : Sys Unit where
  kernel :=
    { Kernel.boot with
      tasks := Function.update (fun _ => {}) 0
        { Kernel.idleThread with permissions := permVfsCapOnly }
      ipcExt := fun _ =>
        ⟨Function.update (fun _ => {}) 0 (dirCapability (strncpy 128 (bytes "/home"))), 1⟩ }
  vfs := ⟨(), []⟩

theorem spawn_from_home_inherits : (GuardedRun.run (Family.step ⟨[], none⟩) (start homeSys)
      [⟨0, .spawn (bytes "job") (bytes "/home/job.sage")⟩]).descendants = [1] ∧
    (GuardedRun.run (Family.step ⟨[], none⟩) (start homeSys)
      [⟨0, .spawn (bytes "job") (bytes "/home/job.sage")⟩]).Inherits :=
  ⟨by decide, inherits_of_safe_run ⟨[], none⟩ homeSys rfl _ ⟨by decide, trivial⟩⟩

theorem vfork_from_home_unconfined : homeSys.task.capOnly ∧
    ¬ (GuardedRun.run (Family.step ⟨[], none⟩) (start homeSys) [⟨0, .vfork⟩]).Inherits := by
  decide

end Family
end SageOS
