import SageOS.FileCallLog

/-!
# Confinement of file system calls

A call is confined when every request it sends to a backend is routed on a path that one of the
task's capabilities names or contains. The capability check compares the bytes of the argument,
the router uses its normal form. The two agree for a path exactly when every directory the path
passes through, and that a capability can name, is an ancestor of what the path resolves to.
-/
namespace SageOS
open List Sys
variable {σ : Type}

inductive FileCallKind
  | open | read | write | unlink | mkdir | chdir | getdents64 | execve
  deriving DecidableEq

inductive FileCall
  | open (path : Option CStr) (flags : UInt32) (st : VfsStat)
  | read (fd : ℤ) (buf : Option Bytes) (count : ℕ)
  | write (fd : ℤ) (buf : Option Bytes)
  | unlink (path : Option CStr)
  | mkdir (path : Option CStr)
  | chdir (path : Option CStr) (st : VfsStat)
  | getdents64 (fd : ℤ) (dirp : Bool) (count : ℕ) (entries : List VfsDirEntry)
  | execve (machine : ℕ) (path : CStr) (argc envc : ℕ) (st : VfsStat)

namespace FileCall

def kind : FileCall → FileCallKind
  | .open .. => .open
  | .read .. => .read
  | .write .. => .write
  | .unlink .. => .unlink
  | .mkdir .. => .mkdir
  | .chdir .. => .chdir
  | .getdents64 .. => .getdents64
  | .execve .. => .execve

def exec (v : Vfs σ) (s : Sys σ) : FileCall → Sys σ
  | .open path flags st => (s.sysOpen v path flags st).2
  | .read fd buf count => (s.sysRead v fd buf count).2.2
  | .write fd buf => (s.sysWrite v fd buf).2
  | .unlink path => (s.sysUnlink v path).2
  | .mkdir path => (s.sysMkdir v path).2
  | .chdir path st => (s.sysChdir v path st).2
  | .getdents64 fd dirp count entries => (s.sysGetdents64 v fd dirp count entries).2.2
  | .execve machine path argc envc st => (s.sysExecve v machine path argc envc st).2

def right : FileCall → UInt32
  | .open _ flags _ => Sys.openRight flags
  | .write .. | .unlink .. | .mkdir .. => ipcCapRightVfsWrite
  | .read .. | .chdir .. | .getdents64 .. | .execve .. => ipcCapRightVfsRead

/-- The path a call names: its argument, or the path kept in the descriptor. -/
def path (s : Sys σ) : FileCall → Option Bytes
  | .open p _ _ | .unlink p | .mkdir p | .chdir p _ => p.map (·.chars)
  | .execve _ p _ _ _ => some p.chars
  | .read fd _ _ | .write fd _ | .getdents64 fd _ _ _ =>
    (s.validFd fd).map fun i => (s.task.fdTable i).path.chars

end FileCall

/-- Some valid capability with the right names the path or a directory that contains it. -/
def CapTable.Grants (tab : CapTable) (path : Bytes) (right : UInt32) : Prop :=
  ∃ i < ipcCapMaxPerTask, (tab.caps i).isValid ∧ (tab.caps i).hasRight right ∧
    ((tab.caps i).objectType = .dir ∧
        components (vfsNormalizePath (tab.caps i).path.chars) <+: components path ∨
      (tab.caps i).objectType = .file ∧ vfsNormalizePath (tab.caps i).path.chars = path)

instance (tab : CapTable) (path : Bytes) (right : UInt32) : Decidable (tab.Grants path right) :=
  inferInstanceAs (Decidable (∃ i < ipcCapMaxPerTask, _))

/-- A directory with both rights, as in the first slot of a new thread. -/
def dirCapability (path : CString 128) : IpcCapability where
  objectType := .dir
  rights := ipcCapRightVfsRead ||| ipcCapRightVfsWrite
  refCount := 1
  path := path

def Sys.forgetLog (s : Sys σ) : Sys σ := { s with vfs := ⟨s.vfs.fs, []⟩ }

def Confined (v : Vfs σ) (s : Sys σ) (c : FileCall) : Prop :=
  ∀ e ∈ (c.exec v s.forgetLog).vfs.log,
    (s.kernel.capTable s.kernel.current).Grants e.routed c.right

instance (v : Vfs σ) (s : Sys σ) (c : FileCall) : Decidable (Confined v s c) :=
  inferInstanceAs (Decidable (∀ e ∈ _, _))

/-- Every directory the path passes through, and that fits the path of a capability, is an
ancestor of what the path resolves to. -/
def StaysInside (p : Bytes) : Prop :=
  ∀ n ≤ p.length, n < 128 → p.getD n 0 = 0 ∨ p.getD n 0 = slash →
    components (vfsNormalizePath (p.take n)) <+: components (vfsNormalizePath p)

instance (p : Bytes) : Decidable (StaysInside p) :=
  inferInstanceAs (Decidable (∀ n ≤ p.length, _))

theorem eq_of_prefix_of_getD_eq_zero {a b : Bytes} (hb : b <+: a) (ha : 0 ∉ a)
    (hz : a.getD b.length 0 = 0) : b = a := by
  obtain ⟨c, rfl⟩ := hb
  cases c with
  | nil => simp
  | cons x c =>
    have hx : x = 0 := by simpa using hz
    exact absurd (by simp [hx]) ha

theorem components_normalize_root : components (vfsNormalizePath [slash]) = [] := by
  decide

theorem grants_of_covers {tab : CapTable} {p : Bytes} {right : UInt32} (hp : 0 ∉ p)
    (hin : StaysInside p) {i : ℕ} (hi : i < ipcCapMaxPerTask)
    (hc : (tab.caps i).covers p right) : tab.Grants (vfsNormalizePath p) right := by
  obtain ⟨hvalid, htype, hright, hcmp, hend⟩ := hc
  refine ⟨i, hi, hvalid, hright, ?_⟩
  have hpre := (strncmp_length_eq_zero_iff p _ (tab.caps i).path.nul_free).mp hcmp
  by_cases hdir : (tab.caps i).objectType = .dir
  · refine .inl ⟨hdir, ?_⟩
    rw [if_pos hdir, ← or_assoc] at hend
    rcases hend with hstop | hroot
    · have htake : p.take (tab.caps i).path.chars.length = (tab.caps i).path.chars :=
        (prefix_iff_eq_take.mp hpre).symm
      have h := hin _ hpre.length_le (tab.caps i).path.length_lt hstop
      rwa [htake] at h
    · obtain ⟨hslash, hz⟩ := (strcmp_eq_zero_iff _ _ (by decide)).mp hroot
      have he := eq_of_prefix_of_getD_eq_zero hslash (tab.caps i).path.nul_free hz
      rw [← he, components_normalize_root]
      exact nil_prefix
  · refine .inr ⟨htype.resolve_left hdir, ?_⟩
    rw [if_neg hdir] at hend
    obtain ⟨hpre', hz⟩ := (strcmp_eq_zero_iff _ _ (tab.caps i).path.nul_free).mp hend
    rw [eq_of_prefix_of_getD_eq_zero hpre' hp hz]

theorem mem_exec_log {v : Vfs σ} {s : Sys σ} {c : FileCall} {e : BackendCall}
    (hc : c.kind ≠ .execve) (he : e ∈ (c.exec v s).vfs.log) :
    e ∈ s.vfs.log ∨ ∃ p, c.path s = some p ∧ s.Justified p c.right e := by
  have hfd {fd : ℤ} {right : UInt32} (h : e ∈ s.vfs.log ∨ ∃ i, s.validFd fd = some i ∧
      s.Justified (s.task.fdTable i).path.chars right e) :
      e ∈ s.vfs.log ∨ ∃ p, ((s.validFd fd).map fun i => (s.task.fdTable i).path.chars) = some p ∧
        s.Justified p right e := by
    rcases h with h | ⟨i, hi, hj⟩
    · exact .inl h
    · exact .inr ⟨_, by rw [hi]; rfl, hj⟩
  have harg {path : Option CStr} {right : UInt32} (h : e ∈ s.vfs.log ∨ ∃ p, path = some p ∧
      s.Justified p.chars right e) :
      e ∈ s.vfs.log ∨ ∃ p, path.map (·.chars) = some p ∧ s.Justified p right e := by
    rcases h with h | ⟨p, rfl, hj⟩
    · exact .inl h
    · exact .inr ⟨_, rfl, hj⟩
  cases c with
  | «open» path flags st => exact harg (sysOpen_log he)
  | read fd buf count => exact hfd (sysRead_log he)
  | write fd buf => exact hfd (sysWrite_log he)
  | unlink path => exact harg (sysModify_log (fun _ _ _ h => v.mem_route_log h) he)
  | mkdir path => exact harg (sysModify_log (fun _ _ _ h => v.mem_route_log h) he)
  | chdir path st => exact harg (sysChdir_log he)
  | getdents64 fd dirp count entries => exact hfd (sysGetdents64_log he)
  | execve machine path argc envc st => exact absurd rfl hc

theorem confined_of_staysInside {v : Vfs σ} {s : Sys σ} {c : FileCall} {p : CStr}
    (hc : c.kind ≠ .execve) (hp : c.path s = some p.chars) (ht : s.task.capOnly)
    (hin : vfsMaxPath ≤ p.chars.length ∨ StaysInside p.chars) : Confined v s c := by
  intro e he
  rcases mem_exec_log hc he with hold | ⟨q, hq, hj⟩
  · exact absurd hold not_mem_nil
  · have hpq : q = p.chars := Option.some_inj.mp (hq.symm.trans hp)
    subst hpq
    rcases hj with hold | ⟨hlen, hacc, hr⟩
    · exact absurd hold not_mem_nil
    · obtain ⟨i, hi, hcov⟩ := hacc ht
      rw [hr]
      exact grants_of_covers p.nul_free (hin.resolve_left (by omega)) hi hcov

end SageOS
