import SageOS.MountRouter

/-!
# One call, one effect

The operations that change a file system are run with backends that record every access. The
bridge is the script itself: its `vfs_write` tries all its longest matches through
`os_backend_write`, which turns a failure into a count of zero and does not look whether the backend
has the operation; its other procedures only act on the driver of the bridge. A call has one effect
when the backend is called once and its answer returned.
-/
namespace SageOS
variable {σ β : Type}

inductive Driver
  | native (id : ℕ) | sage
  deriving DecidableEq

/-- An operation of a driver, or a call through a null pointer. -/
inductive Access
  | call (driver : Driver) (op : VfsOp) (rel : Bytes)
  | wild
  deriving DecidableEq

structure Traced (σ : Type) where
  fs : σ
  trace : List Access

def BackendOp.traced (d : Driver) (op : VfsOp) (f : BackendOp σ β) : BackendOp (Traced σ) β :=
  fun rel buf s =>
    ((f rel buf s.fs).1, (f rel buf s.fs).2.1, ⟨(f rel buf s.fs).2.2, s.trace ++ [.call d op rel]⟩)

def VfsBackend.traced (d : Driver) (b : VfsBackend σ) : VfsBackend (Traced σ) where
  stat := b.stat.map (BackendOp.traced d .stat)
  readdir := b.readdir.map fun f max => BackendOp.traced d .readdir (f max)
  read := b.read.map fun f offset size => BackendOp.traced d .read (f offset size)
  write := b.write.map fun f offset data => BackendOp.traced d .write (f offset data)
  mkdir := b.mkdir.map (BackendOp.traced d .mkdir)
  create := b.create.map (BackendOp.traced d .create)
  unlink := b.unlink.map (BackendOp.traced d .unlink)

structure NativeMount (σ : Type) where
  path : Bytes
  id : ℕ
  ops : VfsBackend σ
  active : Bool

def NativeMount.toVfs (m : NativeMount σ) : VfsMount (Traced σ) :=
  ⟨m.path, m.ops.traced (.native m.id), m.active⟩

/-- An entry of the list of the bridge: a C backend, or its own driver. -/
structure ScriptMount (σ : Type) where
  path : Bytes
  driver : Driver
  ops : VfsBackend σ

def ScriptMount.toBridge (m : ScriptMount σ) : BridgeMount (Traced σ) :=
  ⟨m.path, m.ops.traced m.driver, m.driver = .sage⟩

/-! ### The procedures of the bridge -/

namespace Bridge

def osBackendWrite (b : VfsBackend (Traced σ)) (rel : Bytes) (offset : ℕ) (data : Bytes)
    (s : Traced σ) : ℤ × Traced σ :=
  match b.write with
  | none => (0, { s with trace := s.trace ++ [.wild] })
  | some f =>
    let r := f offset data rel () s
    (if 0 ≤ r.1 then r.1 else 0, r.2.2)

/-- The body of the loop of `vfs_write`; `none` when the script fails. -/
def writeTo (offset : ℕ) (data : Bytes) (hit : BridgeMount (Traced σ) × Bytes) (s : Traced σ) :
    Option ℤ × Traced σ :=
  if hit.1.isSage then
    match hit.1.backend.write with
    | none => (none, s)
    | some f => (some (f offset data hit.2 () s).1, (f offset data hit.2 () s).2.2)
  else
    (some (osBackendWrite hit.1.backend hit.2 offset data s).1,
      (osBackendWrite hit.1.backend hit.2 offset data s).2)

def vfsWrite (offset : ℕ) (data : Bytes) :
    List (BridgeMount (Traced σ) × Bytes) → Traced σ → Option ℤ × Traced σ
  | [], s => (some 0, s)
  | hit :: hits, s =>
    match writeTo offset data hit s with
    | (none, s') => (none, s')
    | (some n, s') => if 0 < n then (some n, s') else vfsWrite offset data hits s'

/-- `vfs_mkdir`, `vfs_create` and `vfs_unlink` of the bridge. -/
def vfsModify (opOf : VfsBackend (Traced σ) → Option (BackendOp (Traced σ) Unit)) :
    List (BridgeMount (Traced σ) × Bytes) → Traced σ → Option ℤ × Traced σ
  | [], s => (some (-2), s)
  | hit :: _, s =>
    if hit.1.isSage then
      match opOf hit.1.backend with
      | none => (none, s)
      | some f => (some (f hit.2 () s).1, (f hit.2 () s).2.2)
    else (some (-1), s)

def answer (r : Option ℤ × Traced σ) : ℤ × Unit × Traced σ := (r.1.getD (-1), (), r.2)

/-- The procedures that change a file system; `viaDouble` is what a number becomes as a `double`. -/
def procedures (viaDouble : ℕ → ℕ) (ms : List (ScriptMount σ)) : VfsBackend (Traced σ) where
  write := some fun offset data path _ s =>
    answer (vfsWrite (viaDouble offset) data (vfsResolveBest (ms.map (·.toBridge)) path) s)
  mkdir := some fun path _ s =>
    answer (vfsModify (·.mkdir) (vfsResolveBest (ms.map (·.toBridge)) path) s)
  create := some fun path _ s =>
    answer (vfsModify (·.create) (vfsResolveBest (ms.map (·.toBridge)) path) s)
  unlink := some fun path _ s =>
    answer (vfsModify (·.unlink) (vfsResolveBest (ms.map (·.toBridge)) path) s)

end Bridge

inductive Mutation
  | write (offset : ℕ) (data : Bytes) | mkdir | create | unlink

namespace Mutation

def op : Mutation → VfsOp
  | .write .. => .write
  | .mkdir => .mkdir
  | .create => .create
  | .unlink => .unlink

def opOf : Mutation → VfsBackend σ → Option (BackendOp σ Unit)
  | .write offset data, b => b.write.map fun f => f offset data
  | .mkdir, b => b.mkdir
  | .create, b => b.create
  | .unlink, b => b.unlink

/-- The test by which the C layer takes an answer for a success. -/
def succeeds : Mutation → ℤ → Bool
  | .write .., r => 0 ≤ r
  | _, r => r = 0

def perform (v : Vfs (Traced σ)) (path : Bytes) (s : VfsState (Traced σ)) :
    Mutation → ℤ × Unit × VfsState (Traced σ)
  | .write offset data => v.vfsWrite path offset data s
  | .mkdir => v.vfsMkdir path s
  | .create => v.vfsCreate path s
  | .unlink => v.vfsUnlink path s

end Mutation

/-- The procedure of the bridge calls an operation when this is its first match. -/
def Bridge.Acts (c : Mutation) (hit : BridgeMount (Traced σ) × Bytes) : Prop :=
  if hit.1.isSage then c.opOf hit.1.backend ≠ none else c.op = .write

/-- The mounts of the C layer and, while the bridge runs, of the bridge. -/
structure Mounted (σ : Type) where
  native : List (NativeMount σ)
  script : Option (List (ScriptMount σ))
  viaDouble : ℕ → ℕ

namespace Mounted
variable (t : Mounted σ)

def vfs : Vfs (Traced σ) where
  mounts := t.native.map (·.toVfs)
  bridge := t.script.map (Bridge.procedures t.viaDouble)

/-- The backend is called once and its answer returned; without the operation nothing is called. -/
def OneEffect (c : Mutation) (m : NativeMount σ) (rel path : Bytes) (s : VfsState (Traced σ)) :
    Prop :=
  let r := c.perform t.vfs path s
  match c.opOf m.ops with
  | some f => r.2.2.fs.trace = s.fs.trace ++ [.call (.native m.id) c.op rel] ∧
      r.1 = (f rel () s.fs.fs).1
  | none => r.2.2.fs.trace = s.fs.trace

def Reached (c : Mutation) (path : Bytes) : Prop :=
  ∃ ms, t.script = some ms ∧ ∃ hit, (vfsResolveBest (ms.map (·.toBridge)) path).head? = some hit ∧
    Bridge.Acts c hit

end Mounted
end SageOS
