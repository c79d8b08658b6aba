import SageOS.VfsConfinement

/-!
# The exact paths of confined calls

A path that does not stay inside escapes: some confined task with one directory capability passes
the check with it and reaches a backend outside that directory, through every kind of call.
`sys_execve` needs no capability, so no path is confined there.
-/
namespace SageOS
open List Sys Vfs

def permissiveBackend : VfsBackend Unit where
  stat := some fun _ st fs => (0, st, fs)
  readdir := some fun _ _ entries fs => (0, entries, fs)
  read := some fun _ _ _ buf fs => (0, buf, fs)
  write := some fun _ _ _ buf fs => (0, buf, fs)
  mkdir := some fun _ buf fs => (0, buf, fs)
  create := some fun _ buf fs => (0, buf, fs)
  unlink := some fun _ buf fs => (0, buf, fs)

def permissiveVfs : Vfs Unit := ⟨[⟨[slash], permissiveBackend, true⟩], none⟩

/-- A confined task that holds one capability and one path in every descriptor. -/
def confinedSys (cap : IpcCapability) (p : CString 256) : Sys Unit where
  kernel :=
    { tasks := fun _ =>
        { permissions := permVfsCapOnly, fdTable := fun _ => { valid := true, path := p } }
      ipcExt := fun _ => ⟨fun _ => cap, 0⟩ }
  vfs := ⟨(), []⟩

/-- A call of each kind that names `p` in that world; descriptor 3 stands for `p`. -/
def probe (p : CStr) : FileCallKind → FileCall
  | .open => .open (some p) 0 {}
  | .read => .read 3 (some []) 0
  | .write => .write 3 (some [])
  | .unlink => .unlink (some p)
  | .mkdir => .mkdir (some p)
  | .chdir => .chdir (some p) {}
  | .getdents64 => .getdents64 3 true 0 []
  | .execve => .execve 62 p 0 0 {}

@[simp] theorem kind_probe (p : CStr) (kind : FileCallKind) : (probe p kind).kind = kind := by
  cases kind <;> rfl

theorem capOnly_confinedSys (cap : IpcCapability) (p : CString 256) :
    (confinedSys cap p).task.capOnly := by
  change permVfsCapOnly &&& permVfsCapOnly ≠ 0
  decide

theorem path_probe (cap : IpcCapability) (p : CString 256) (kind : FileCallKind) :
    (probe p.toCStr kind).path (confinedSys cap p) = some p.chars := by
  cases kind <;> rfl

theorem resolveMount_permissive (norm : Bytes) : resolveMount permissiveVfs.mounts norm =
    some (⟨[slash], permissiveBackend, true⟩, norm) := by
  simp [resolveMount, bestMount, permissiveVfs, mountMatches, relativePath]

theorem route_permissive {β : Type} {op : VfsOp}
    {opOf : VfsBackend Unit → Option (BackendOp Unit β)} {ok : ℤ → Bool} (hok : ok 0 = true)
    (hop : opOf permissiveBackend = some fun _ buf fs => (0, buf, fs)) (path : Bytes) (buf : β)
    (s : VfsState Unit) : permissiveVfs.route op opOf ok path buf s =
      (0, buf, ⟨s.fs, s.log ++ [⟨op, vfsNormalizePath path⟩]⟩) := by
  simp [route, firstTries, Vfs.direct, resolveMount_permissive, hop, attempt, VfsState.invoke, hok]

theorem readdir_permissive (path : Bytes) (max : ℕ) (entries : List VfsDirEntry)
    (s : VfsState Unit) : permissiveVfs.vfsReaddir path max entries s =
      (0, entries, ⟨s.fs, s.log ++ [⟨.readdir, vfsNormalizePath path⟩]⟩) := by
  simp [vfsReaddir, firstTries, Vfs.direct, resolveMount_permissive, permissiveBackend,
    attempt, VfsState.invoke]

section Permissive
variable (path : Bytes) (s : VfsState Unit)

theorem vfsStat_permissive (st : VfsStat) : permissiveVfs.vfsStat path st s =
    (0, st, ⟨s.fs, s.log ++ [⟨.stat, vfsNormalizePath path⟩]⟩) :=
  route_permissive (by decide) rfl path st s

theorem vfsRead_permissive (offset size : ℕ) (buf : Bytes) :
    permissiveVfs.vfsRead path offset size buf s =
      (0, buf, ⟨s.fs, s.log ++ [⟨.read, vfsNormalizePath path⟩]⟩) :=
  route_permissive (by decide) rfl path buf s

theorem vfsWrite_permissive (offset : ℕ) (data : Bytes) :
    permissiveVfs.vfsWrite path offset data s =
      (0, (), ⟨s.fs, s.log ++ [⟨.write, vfsNormalizePath path⟩]⟩) :=
  route_permissive (by decide) rfl path () s

theorem vfsMkdir_permissive : permissiveVfs.vfsMkdir path s =
    (0, (), ⟨s.fs, s.log ++ [⟨.mkdir, vfsNormalizePath path⟩]⟩) :=
  route_permissive (by decide) rfl path () s

theorem vfsUnlink_permissive : permissiveVfs.vfsUnlink path s =
    (0, (), ⟨s.fs, s.log ++ [⟨.unlink, vfsNormalizePath path⟩]⟩) :=
  route_permissive (by decide) rfl path () s

end Permissive

variable {p : CString 256}

theorem mayAccess_confinedSys {cap : IpcCapability} {q : Bytes}
    {right : UInt32} (h : cap.covers q right) : (confinedSys cap p).mayAccess q right :=
  fun _ => ⟨0, by decide, h⟩

@[simp] theorem validFd_confinedSys (cap : IpcCapability) (p : CString 256) :
    (confinedSys cap p).validFd 3 = some 3 := rfl

@[simp] theorem fdTable_confinedSys (cap : IpcCapability) (p : CString 256) (i : ℕ) :
    ((confinedSys cap p).task.fdTable i).path = p := rfl

theorem execve_reaches (cap : IpcCapability) (q : CString 256) (p : CStr) :
    ⟨.stat, vfsNormalizePath p.chars⟩ ∈
      ((probe p .execve).exec permissiveVfs (confinedSys cap q)).vfs.log := by
  simp [probe, FileCall.exec, sysExecve, vfsStat_permissive, Arena.sageMalloc]

theorem probe_reaches {cap : IpcCapability} (kind : FileCallKind)
    (hcap : ∀ right ∈ [ipcCapRightVfsRead, ipcCapRightVfsWrite], cap.covers p.chars right) :
    ∃ e ∈ ((probe p.toCStr kind).exec permissiveVfs (confinedSys cap p)).vfs.log,
      e.routed = vfsNormalizePath p.chars := by
  have hlen : ¬ vfsMaxPath ≤ p.chars.length := Nat.not_le.mpr p.length_lt
  have hr : (confinedSys cap p).mayAccess p.chars ipcCapRightVfsRead :=
    mayAccess_confinedSys (hcap _ (by simp))
  have hw : (confinedSys cap p).mayAccess p.chars ipcCapRightVfsWrite :=
    mayAccess_confinedSys (hcap _ (by simp))
  cases kind with
  | «open» =>
    have hright : openRight 0 = ipcCapRightVfsRead := by decide
    refine ⟨⟨.stat, vfsNormalizePath p.chars⟩, ?_, rfl⟩
    simp [probe, FileCall.exec, sysOpen, hlen, hright, hr, vfsStat_permissive]
  | read =>
    refine ⟨⟨.read, vfsNormalizePath p.chars⟩, ?_, rfl⟩
    simp [probe, FileCall.exec, sysRead, hr, vfsRead_permissive]
  | write =>
    refine ⟨⟨.write, vfsNormalizePath p.chars⟩, ?_, rfl⟩
    simp [probe, FileCall.exec, sysWrite, hw, vfsWrite_permissive]
  | unlink =>
    refine ⟨⟨.unlink, vfsNormalizePath p.chars⟩, ?_, rfl⟩
    simp [probe, FileCall.exec, sysUnlink, sysModify, hlen, hw, vfsUnlink_permissive]
  | mkdir =>
    refine ⟨⟨.mkdir, vfsNormalizePath p.chars⟩, ?_, rfl⟩
    simp [probe, FileCall.exec, sysMkdir, sysModify, hlen, hw, vfsMkdir_permissive]
  | chdir =>
    refine ⟨⟨.stat, vfsNormalizePath p.chars⟩, ?_, rfl⟩
    simp [probe, FileCall.exec, sysChdir, hlen, hr, vfsStat_permissive]
  | getdents64 =>
    refine ⟨⟨.readdir, vfsNormalizePath p.chars⟩, ?_, rfl⟩
    simp [probe, FileCall.exec, sysGetdents64, hr, readdir_permissive]
  | execve => exact ⟨_, execve_reaches cap p p.toCStr, rfl⟩

theorem not_grants_dirCapability {path : CString 128} {q : Bytes} {right : UInt32}
    (hout : ¬ components (vfsNormalizePath path.chars) <+: components q) :
    ¬ CapTable.Grants ⟨fun _ => dirCapability path, 0⟩ q right := by
  rintro ⟨i, _, _, _, hdir | hfile⟩
  · exact hout hdir.2
  · exact absurd hfile.1 (by simp [dirCapability])

theorem covers_dirCapability {n : ℕ} (hn : n ≤ p.chars.length)
    (path : CString 128) (hpath : path.chars = p.chars.take n)
    (hstop : p.chars.getD n 0 = 0 ∨ p.chars.getD n 0 = slash) :
    ∀ right ∈ [ipcCapRightVfsRead, ipcCapRightVfsWrite],
      (dirCapability path).covers p.chars right := by
  intro right hright
  have hlen : path.chars.length = n := by rw [hpath, length_take, min_eq_left hn]
  refine ⟨⟨by simp [dirCapability], by simp [dirCapability]⟩, .inl rfl, ?_, ?_, ?_⟩
  · change (ipcCapRightVfsRead ||| ipcCapRightVfsWrite) &&& right ≠ 0
    rcases mem_pair.mp hright with rfl | rfl <;> decide
  · apply (strncmp_length_eq_zero_iff _ _ path.nul_free).mpr
    rw [hpath]
    exact take_prefix n p.chars
  · have hdir : (dirCapability path).objectType = .dir := rfl
    rw [if_pos hdir, ← or_assoc]
    change (p.chars.getD path.chars.length 0 = 0 ∨ p.chars.getD path.chars.length 0 = slash) ∨ _
    rw [hlen]
    exact .inl hstop

/-- Confinement of a kind of call to a path, whatever the capabilities and the file system:
exactly when the call checks at all and the path is too long or stays inside. -/
theorem vfs_confined_iff (kind : FileCallKind) (p : CStr) :
    (∀ (σ : Type) (v : Vfs σ) (s : Sys σ) (c : FileCall), c.kind = kind →
      c.path s = some p.chars → s.task.capOnly → Confined v s c) ↔
    kind ≠ .execve ∧ (vfsMaxPath ≤ p.chars.length ∨ StaysInside p.chars) := by
  constructor
  · intro hall
    constructor
    · rintro rfl
      have hgrant := hall Unit permissiveVfs (confinedSys {} (strncpy 256 [])) (probe p .execve)
        rfl rfl (capOnly_confinedSys _ _) _ (execve_reaches {} _ p)
      obtain ⟨i, _, hvalid, _⟩ := hgrant
      exact IpcCapability.not_isValid_default hvalid
    · by_contra hnot
      obtain ⟨hlen, hout⟩ := not_or.mp hnot
      obtain ⟨n, hn, hn', hstop, hesc⟩ : ∃ n ≤ p.chars.length, n < 128 ∧
          (p.chars.getD n 0 = 0 ∨ p.chars.getD n 0 = slash) ∧
          ¬ components (vfsNormalizePath (p.chars.take n)) <+:
            components (vfsNormalizePath p.chars) := by
        simpa only [StaysInside, not_forall, exists_prop] using hout
      have hlen' : p.chars.length < 256 := by
        change ¬ 256 ≤ p.chars.length at hlen
        omega
      let path : CString 128 :=
        ⟨⟨p.chars.take n, fun h => p.nul_free (mem_of_mem_take h)⟩, by
          rw [length_take]
          omega⟩
      let p' : CString 256 := ⟨p, hlen'⟩
      obtain ⟨e, he, hr⟩ := probe_reaches kind (covers_dirCapability (p := p') hn path rfl hstop)
      have hgrant := hall Unit permissiveVfs (confinedSys (dirCapability path) p') (probe p kind)
        (kind_probe p kind) (path_probe _ p' kind) (capOnly_confinedSys _ _) e he
      rw [hr] at hgrant
      exact not_grants_dirCapability hesc hgrant
  · rintro ⟨hkind, hin⟩ σ v s c rfl hp ht
    exact confined_of_staysInside hkind hp ht hin

/-- A task that holds only `/home` opens a file of `/etc`. -/
theorem open_dotdot_escapes :
    (confinedSys (dirCapability (strncpy 128 (bytes "/home"))) (strncpy 256 [])).task.capOnly ∧
    ¬ Confined permissiveVfs
      (confinedSys (dirCapability (strncpy 128 (bytes "/home"))) (strncpy 256 []))
      (.open (some ⟨bytes "/home/../etc/passwd", by decide⟩) 0 {}) := by
  decide +kernel

end SageOS
