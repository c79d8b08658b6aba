import SageOS.VfsPath

/-!
# The virtual file system layer

Every operation normalises its path, routes it to the mount with the longest matching prefix and
asks that backend; when the backend fails it asks the scripted bridge with the unnormalised path,
and then the backend once more. Backends and the bridge are parameters over an arbitrary file
system state. Each request that leaves the layer is logged with the path it was routed on.
-/
namespace SageOS
variable {σ β : Type}

inductive VfsNodeType
  | file | directory | symlink
  deriving DecidableEq, Repr

structure VfsStat where
  name : CString 64 := strncpy 64 []
  type : VfsNodeType := .file
  size : ℕ := 0
  deriving DecidableEq

structure VfsDirEntry where
  name : CString 64
  type : VfsNodeType
  size : ℕ
  deriving DecidableEq

def vfsENOENT : ℤ := -2
def vfsEio : ℤ := -5
def vfsEACCES : ℤ := -13
def vfsEEXIST : ℤ := -17
def vfsENOTDIR : ℤ := -20
def vfsEINVAL : ℤ := -22
def vfsENOSPC : ℤ := -28

/-- A backend operation reads a relative path and an output buffer. -/
abbrev BackendOp (σ β : Type) := Bytes → β → σ → ℤ × β × σ

structure VfsBackend (σ : Type) where
  stat : Option (BackendOp σ VfsStat) := none
  readdir : Option (ℕ → BackendOp σ (List VfsDirEntry)) := none
  read : Option (ℕ → ℕ → BackendOp σ Bytes) := none
  write : Option (ℕ → Bytes → BackendOp σ Unit) := none
  mkdir : Option (BackendOp σ Unit) := none
  create : Option (BackendOp σ Unit) := none
  unlink : Option (BackendOp σ Unit) := none

structure VfsMount (σ : Type) where
  path : Bytes
  backend : VfsBackend σ
  active : Bool

/-- The mount table and, once it is initialised, the procedures of the bridge. -/
structure Vfs (σ : Type) where
  mounts : List (VfsMount σ)
  bridge : Option (VfsBackend σ)

inductive VfsOp
  | stat | readdir | read | write | mkdir | create | unlink
  deriving DecidableEq, Repr

structure BackendCall where
  op : VfsOp
  routed : Bytes
  deriving DecidableEq

structure VfsState (σ : Type) where
  fs : σ
  log : List BackendCall

def mountMatches (norm : Bytes) (m : VfsMount σ) : Bool :=
  m.active && (m.path = [slash] || (m.path.length ≤ norm.length &&
    strncmp norm m.path m.path.length = 0 &&
    (norm.length = m.path.length || norm.getD m.path.length 0 = slash)))

def bestMount (norm : Bytes) (mounts : List (VfsMount σ)) : Option (VfsMount σ) :=
  mounts.foldl (fun best m =>
    if mountMatches norm m && best.all (·.path.length < m.path.length) then some m else best) none

def relativePath (norm : Bytes) (m : VfsMount σ) : Bytes :=
  if m.path = [slash] then norm
  else if norm.length = m.path.length then [slash]
  else norm.drop m.path.length

def resolveMount (mounts : List (VfsMount σ)) (norm : Bytes) : Option (VfsMount σ × Bytes) :=
  (bestMount norm mounts).map fun m => (m, relativePath norm m)

def VfsState.invoke (s : VfsState σ) (call : BackendCall) (f : σ → ℤ × β × σ) :
    ℤ × β × VfsState σ :=
  ((f s.fs).1, (f s.fs).2.1, ⟨(f s.fs).2.2, s.log ++ [call]⟩)

namespace Vfs
variable (v : Vfs σ)

def direct (opOf : VfsBackend σ → Option (BackendOp σ β)) (path : Bytes) :
    Option (β → σ → ℤ × β × σ) :=
  (resolveMount v.mounts (vfsNormalizePath path)).bind fun hit =>
    (opOf hit.1.backend).map fun f => f hit.2

def attempt (call : BackendCall) (f : Option (β → σ → ℤ × β × σ)) (buf : β) (s : VfsState σ) :
    ℤ × β × VfsState σ :=
  match f with
  | some f => s.invoke call (f buf)
  | none => (vfsENOENT, buf, s)

/-- The backend is asked first and the bridge second, with the unnormalised path. -/
def firstTries (op : VfsOp) (opOf : VfsBackend σ → Option (BackendOp σ β)) (ok : ℤ → Bool)
    (path : Bytes) (buf : β) (s : VfsState σ) : ℤ × β × VfsState σ :=
  let call : BackendCall := ⟨op, vfsNormalizePath path⟩
  let r := attempt call (v.direct opOf path) buf s
  if ok r.1 then r
  else attempt call ((v.bridge.bind opOf).map fun f => f path) r.2.1 r.2.2

def route (op : VfsOp) (opOf : VfsBackend σ → Option (BackendOp σ β)) (ok : ℤ → Bool)
    (path : Bytes) (buf : β) (s : VfsState σ) : ℤ × β × VfsState σ :=
  let r := v.firstTries op opOf ok path buf s
  if ok r.1 then r
  else attempt ⟨op, vfsNormalizePath path⟩ (v.direct opOf path) r.2.1 r.2.2

def vfsStat (path : Bytes) (out : VfsStat) (s : VfsState σ) : ℤ × VfsStat × VfsState σ :=
  v.route .stat (·.stat) (· = 0) path out s

def vfsRead (path : Bytes) (offset size : ℕ) (buffer : Bytes) (s : VfsState σ) :
    ℤ × Bytes × VfsState σ :=
  v.route .read (·.read.map fun f => f offset size) (0 ≤ ·) path buffer s

def vfsWrite (path : Bytes) (offset : ℕ) (data : Bytes) (s : VfsState σ) :
    ℤ × Unit × VfsState σ :=
  v.route .write (·.write.map fun f => f offset data) (0 ≤ ·) path () s

def vfsMkdir (path : Bytes) (s : VfsState σ) : ℤ × Unit × VfsState σ :=
  v.route .mkdir (·.mkdir) (· = 0) path () s

def vfsCreate (path : Bytes) (s : VfsState σ) : ℤ × Unit × VfsState σ :=
  v.route .create (·.create) (· = 0) path () s

def vfsUnlink (path : Bytes) (s : VfsState σ) : ℤ × Unit × VfsState σ :=
  v.route .unlink (·.unlink) (· = 0) path () s

def virtualDirs : List VfsDirEntry :=
  ["dev", "tmp", "etc", "bin"].map fun n => ⟨strncpy 64 (bytes n), .directory, 0⟩

/-- The first component of a mount path, listed once in the root directory. -/
def listMount (maxEntries : ℕ) (entries : List VfsDirEntry) (m : VfsMount σ) :
    List VfsDirEntry :=
  let p := if m.path.head? = some slash then m.path.tail else m.path
  let top := p.takeWhile (· ≠ slash)
  if entries.length < maxEntries ∧ m.active = true ∧ top ≠ [] ∧
      ∀ e ∈ entries, e.name.chars ≠ top then
    entries ++ [⟨strncpy 64 top, .directory, 0⟩]
  else entries

def rootListing (maxEntries : ℕ) : List VfsDirEntry :=
  v.mounts.foldl (listMount maxEntries) (virtualDirs.take maxEntries)

def vfsReaddir (path : Bytes) (maxEntries : ℕ) (entries : List VfsDirEntry) (s : VfsState σ) :
    ℤ × List VfsDirEntry × VfsState σ :=
  let opOf : VfsBackend σ → Option (BackendOp σ (List VfsDirEntry)) :=
    (·.readdir.map fun f => f maxEntries)
  let r := v.firstTries .readdir opOf (0 ≤ ·) path entries s
  if 0 ≤ r.1 then r
  else if vfsNormalizePath path = [slash] then
    ((v.rootListing maxEntries).length, v.rootListing maxEntries, r.2.2)
  else attempt ⟨.readdir, vfsNormalizePath path⟩ (v.direct opOf path) r.2.1 r.2.2

variable {s : VfsState σ}

theorem mem_attempt_log {call e : BackendCall} {f : Option (β → σ → ℤ × β × σ)} {buf : β}
    (he : e ∈ (attempt call f buf s).2.2.log) : e ∈ s.log ∨ e = call := by
  cases f with
  | none => exact .inl he
  | some f =>
    have hmem : e ∈ s.log ++ [call] := he
    simpa using hmem

variable {e : BackendCall} {path : Bytes}

theorem mem_firstTries_log {op : VfsOp} {opOf : VfsBackend σ → Option (BackendOp σ β)}
    {ok : ℤ → Bool} {buf : β}
    (he : e ∈ (v.firstTries op opOf ok path buf s).2.2.log) :
    e ∈ s.log ∨ e = ⟨op, vfsNormalizePath path⟩ := by
  unfold firstTries at he
  dsimp only at he
  split_ifs at he with hok
  · exact mem_attempt_log he
  · exact (mem_attempt_log he).elim mem_attempt_log .inr

/-- Whatever the backends and the bridge answer, a request leaves the layer only under the
normalised path. -/
theorem mem_route_log {op : VfsOp} {opOf : VfsBackend σ → Option (BackendOp σ β)}
    {ok : ℤ → Bool} {buf : β}
    (he : e ∈ (v.route op opOf ok path buf s).2.2.log) :
    e ∈ s.log ∨ e = ⟨op, vfsNormalizePath path⟩ := by
  unfold route at he
  dsimp only at he
  split_ifs at he with hok
  · exact v.mem_firstTries_log he
  · exact (mem_attempt_log he).elim v.mem_firstTries_log .inr

theorem mem_vfsReaddir_log {maxEntries : ℕ} {entries : List VfsDirEntry}
    (he : e ∈ (v.vfsReaddir path maxEntries entries s).2.2.log) :
    e ∈ s.log ∨ e = ⟨.readdir, vfsNormalizePath path⟩ := by
  unfold vfsReaddir at he
  dsimp only at he
  split_ifs at he with hok hroot
  · exact v.mem_firstTries_log he
  · exact v.mem_firstTries_log he
  · exact (mem_attempt_log he).elim v.mem_firstTries_log .inr

end Vfs
end SageOS
