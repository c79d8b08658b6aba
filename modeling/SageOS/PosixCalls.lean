import SageOS.VfsConfinement
import SageOS.ThreadLifecycle

/-!
# Results of the POSIX calls

A caller of `open`, `read`, `waitpid` and the others reads a negative result as a failure and any
other as a descriptor, a count or a process id. `Failed` says when a call was refused or the
operation of the file system it ends in failed, and a call is honest when its result is negative
exactly then. The macros `VFS_E*` are negative, so every refusal written `-VFS_E*` is positive:
only the failures passed on from the file system are reported, and a seek to a negative position
looks like a failure.
-/
namespace SageOS
variable {σ : Type}

structure StatBuf where
  size : ℤ
  mode : ℕ
  deriving DecidableEq

def modeDir : ℕ := 0o040000 ||| 0o755
def modeReg : ℕ := 0o100000 ||| 0o644

namespace Sys
variable (v : Vfs σ) (s : Sys σ)

def sysClose (fd : ℤ) : ℤ × Sys σ :=
  match s.validFd fd with
  | none => (-vfsEINVAL, s)
  | some i => (0, s.setFd i { s.task.fdTable i with valid := false })

def seekTo (fd : ℕ) (offset : ℤ) : ℤ × Sys σ :=
  (toInt64 offset, s.setFd fd { s.task.fdTable fd with offset := toInt64 offset })

def sysLseek (fd offset whence : ℤ) (st : VfsStat) : ℤ × Sys σ :=
  match s.validFd fd with
  | none => (-vfsEINVAL, s)
  | some i =>
    let e := s.task.fdTable i
    if whence = 0 then s.seekTo i offset
    else if whence = 1 then s.seekTo i (e.offset + offset)
    else if whence = 2 then
      let r := v.vfsStat e.path.chars st s.vfs
      let s₁ : Sys σ := { s with vfs := r.2.2 }
      if r.1 = 0 then s₁.seekTo i (r.2.1.size + offset) else (-vfsEio, s₁)
    else (-vfsEINVAL, s)

/-- Fills the buffer of the caller, if there is one. -/
def sysFstat (fd : ℤ) (buf : Option StatBuf) (st : VfsStat) : ℤ × Option StatBuf × Sys σ :=
  match buf with
  | none => (-vfsEINVAL, none, s)
  | some old =>
    match s.validFd fd with
    | none => (-vfsEINVAL, some old, s)
    | some i =>
      let r := v.vfsStat (s.task.fdTable i).path.chars st s.vfs
      let s₁ : Sys σ := { s with vfs := r.2.2 }
      if r.1 < 0 then (-vfsEio, some old, s₁)
      else
        let mode := if r.2.1.type = .directory then modeDir else modeReg
        (0, some ⟨toInt64 r.2.1.size, mode⟩, s₁)

def sysDup2 (oldfd newfd : ℤ) : ℤ × Sys σ :=
  match s.validFd oldfd with
  | none => (-vfsEINVAL, s)
  | some i =>
    if newfd < 0 ∨ maxFd ≤ newfd then (-vfsEINVAL, s)
    else (newfd, s.setFd newfd.toNat (s.task.fdTable i))

/-- What `sys_waitpid` returns, if it returns before it gives up the processor. -/
def waitpidResult (pid : ℤ) : Option ℤ :=
  match (s.kernel.sysWaitpid (pid % 2 ^ 32).toNat).1 with
  | .ret code => some (toInt32 code.toNat)
  | _ => none

end Sys

inductive PosixCall
  | file (c : FileCall)
  | close (fd : ℤ)
  | lseek (fd offset whence : ℤ) (st : VfsStat)
  | fstat (fd : ℤ) (buf : Option StatBuf) (st : VfsStat)
  | dup2 (oldfd newfd : ℤ)
  | waitpid (pid : ℤ)

namespace FileCall

/-- `none` when the call does not return to its caller. -/
def result (v : Vfs σ) (s : Sys σ) : FileCall → Option ℤ
  | .open path flags st => some (s.sysOpen v path flags st).1
  | .read fd buf count => some (s.sysRead v fd buf count).1
  | .write fd buf => some (s.sysWrite v fd buf).1
  | .unlink path => some (s.sysUnlink v path).1
  | .mkdir path => some (s.sysMkdir v path).1
  | .chdir path st => some (s.sysChdir v path st).1
  | .getdents64 fd dirp count entries => some (s.sysGetdents64 v fd dirp count entries).1
  | .execve machine path argc envc st => (s.sysExecve v machine path argc envc st).1

end FileCall

namespace PosixCall

def result (v : Vfs σ) (s : Sys σ) : PosixCall → Option ℤ
  | .file c => c.result v s
  | .close fd => some (s.sysClose fd).1
  | .lseek fd offset whence st => some (s.sysLseek v fd offset whence st).1
  | .fstat fd buf st => some (s.sysFstat v fd buf st).1
  | .dup2 oldfd newfd => some (s.sysDup2 oldfd newfd).1
  | .waitpid pid => s.waitpidResult pid

end PosixCall

namespace Sys
variable (v : Vfs σ) (s : Sys σ)

def admitted (path : Option CStr) (right : UInt32) : Option Bytes :=
  (path.map (·.chars)).filter fun p => p.length < vfsMaxPath ∧ s.mayAccess p right

/-- The descriptor, if it is open and the task may use its path. -/
def usable (fd : ℤ) (right : UInt32) : Option ℕ :=
  (s.validFd fd).filter fun i => s.mayAccess (s.task.fdTable i).path.chars right

def fdPath (i : ℕ) : Bytes := (s.task.fdTable i).path.chars

def fdOffset (i : ℕ) : ℕ := ((s.task.fdTable i).offset % 2 ^ 64).toNat

def statOf (path : Bytes) (st : VfsStat) : ℤ × VfsStat × VfsState σ := v.vfsStat path st s.vfs

def createOf (path : Bytes) (st : VfsStat) : ℤ := (v.vfsCreate path (s.statOf v path st).2.2).1

def readOf (i count : ℕ) (data : Bytes) : ℤ :=
  (v.vfsRead (s.fdPath i) (s.fdOffset i) count data s.vfs).1

def writeOf (i : ℕ) (data : Bytes) : ℤ := (v.vfsWrite (s.fdPath i) (s.fdOffset i) data s.vfs).1

def readdirOf (i : ℕ) (entries : List VfsDirEntry) : ℤ :=
  (v.vfsReaddir (s.fdPath i) vfsDirentMax entries s.vfs).1

def imageOf (path : Bytes) (st : VfsStat) : ℤ × Bytes × VfsState σ :=
  let r := s.statOf v path st
  v.vfsRead path 0 r.2.1.size (List.replicate r.2.1.size 0) r.2.2

def imageBuffer (path : Bytes) (st : VfsStat) : Option (ℕ × Arena) :=
  s.kernel.arena.sageMalloc (s.statOf v path st).2.1.size

def imageRead (path : Bytes) (st : VfsStat) : Prop :=
  (s.imageOf v path st).1 = toInt32 (s.statOf v path st).2.1.size

instance (path : Bytes) (st : VfsStat) : Decidable (s.imageRead v path st) :=
  inferInstanceAs (Decidable (_ = _))

/-- The image was read and the loader returns. -/
def loaderRefuses (machine : ℕ) (path : Bytes) (argc envc : ℕ) (st : VfsStat) : Prop :=
  s.imageRead v path st ∧ ∃ b ∈ s.imageBuffer v path st,
    (Elf.elfExec machine (s.imageOf v path st).2.1 argc envc
      (Elf.saveParentImage { s.kernel with arena := b.2 } s.kernel.current).arena).1 ≠ none

end Sys

namespace FileCall

/-- The call is turned down before any operation that would do its work. -/
def Refused (v : Vfs σ) (s : Sys σ) : FileCall → Prop
  | .open path flags st =>
    s.admitted path (Sys.openRight flags) = none ∨
    ∃ p ∈ s.admitted path (Sys.openRight flags),
      (s.statOf v p st).1 < 0 ∧ flags &&& oCreat = 0 ∨
      0 ≤ (s.statOf v p st).1 ∧ flags &&& oCreat ≠ 0 ∧ flags &&& oExcl ≠ 0 ∨
      ∀ i < maxFd, 3 ≤ i → (s.task.fdTable i).valid = true
  | .read fd buf _ =>
    buf = none ∨ s.validFd fd = none ∨ fd ≠ 0 ∧ s.usable fd ipcCapRightVfsRead = none
  | .write fd buf =>
    buf = none ∨ fd ≠ 1 ∧ fd ≠ 2 ∧ s.usable fd ipcCapRightVfsWrite = none
  | .unlink path | .mkdir path => s.admitted path ipcCapRightVfsWrite = none
  | .chdir path st =>
    s.admitted path ipcCapRightVfsRead = none ∨
    ∃ p ∈ s.admitted path ipcCapRightVfsRead,
      0 ≤ (s.statOf v p st).1 ∧ (s.statOf v p st).2.1.type ≠ .directory
  | .getdents64 fd dirp _ _ => dirp = false ∨ s.usable fd ipcCapRightVfsRead = none
  | .execve machine path argc envc st =>
    0 ≤ (s.statOf v path.chars st).1 ∧
      (s.imageBuffer v path.chars st = none ∨ s.loaderRefuses v machine path.chars argc envc st)

/-- The operation of the file system a call ends in fails. -/
def VfsFailed (v : Vfs σ) (s : Sys σ) : FileCall → Prop
  | .open path flags st =>
    ∃ p ∈ s.admitted path (Sys.openRight flags), s.createOf v p st < 0 ∧
      ((s.statOf v p st).1 < 0 ∧ flags &&& oCreat ≠ 0 ∨
        0 ≤ (s.statOf v p st).1 ∧ flags &&& oTrunc ≠ 0 ∧ (s.statOf v p st).2.1.type = .file)
  | .read fd buf count =>
    ∃ data ∈ buf, ∃ i ∈ s.usable fd ipcCapRightVfsRead, fd ≠ 0 ∧ s.readOf v i count data < 0
  | .write fd buf =>
    ∃ data ∈ buf, ∃ i ∈ s.usable fd ipcCapRightVfsWrite,
      fd ≠ 1 ∧ fd ≠ 2 ∧ s.writeOf v i data < 0
  | .unlink path => ∃ p ∈ s.admitted path ipcCapRightVfsWrite, (v.vfsUnlink p s.vfs).1 < 0
  | .mkdir path => ∃ p ∈ s.admitted path ipcCapRightVfsWrite, (v.vfsMkdir p s.vfs).1 < 0
  | .chdir path st => ∃ p ∈ s.admitted path ipcCapRightVfsRead, (s.statOf v p st).1 < 0
  | .getdents64 fd dirp _ entries =>
    dirp = true ∧ ∃ i ∈ s.usable fd ipcCapRightVfsRead, s.readdirOf v i entries < 0
  | .execve _ path _ _ st =>
    (s.statOf v path.chars st).1 < 0 ∨
      s.imageBuffer v path.chars st ≠ none ∧ ¬ s.imageRead v path.chars st

/-- The failure is one that a lower layer reports and the call hands on as it is. -/
def HandedOn (v : Vfs σ) (s : Sys σ) : FileCall → Prop
  | .open path flags st =>
    ∃ p ∈ s.admitted path (Sys.openRight flags), (s.statOf v p st).1 < 0 ∧
      flags &&& oCreat ≠ 0 ∧ s.createOf v p st < 0
  | .chdir .. => False
  | .execve machine path argc envc st =>
    0 ≤ (s.statOf v path.chars st).1 ∧ s.loaderRefuses v machine path.chars argc envc st
  | c => c.VfsFailed v s

end FileCall

namespace PosixCall

def Refused (v : Vfs σ) (s : Sys σ) : PosixCall → Prop
  | .file c => c.Refused v s
  | .close fd => s.validFd fd = none
  | .lseek fd _ whence _ => s.validFd fd = none ∨ whence ≠ 0 ∧ whence ≠ 1 ∧ whence ≠ 2
  | .fstat fd buf _ => buf = none ∨ s.validFd fd = none
  | .dup2 oldfd newfd => s.validFd oldfd = none ∨ newfd < 0 ∨ maxFd ≤ newfd
  | .waitpid pid => s.kernel.schedGetThreadById (pid % 2 ^ 32).toNat = none

def VfsFailed (v : Vfs σ) (s : Sys σ) : PosixCall → Prop
  | .file c => c.VfsFailed v s
  | .lseek fd _ whence st =>
    ∃ i ∈ s.validFd fd, whence = 2 ∧ (s.statOf v (s.fdPath i) st).1 ≠ 0
  | .fstat fd buf st =>
    buf ≠ none ∧ ∃ i ∈ s.validFd fd, (s.statOf v (s.fdPath i) st).1 < 0
  | .close _ | .dup2 .. | .waitpid _ => False

def Failed (v : Vfs σ) (s : Sys σ) (c : PosixCall) : Prop := c.Refused v s ∨ c.VfsFailed v s

/-- A negative result means failure, and a failure has a negative result. -/
def Honest (v : Vfs σ) (s : Sys σ) (c : PosixCall) : Prop :=
  match c.result v s with
  | none => ¬ c.Failed v s
  | some r => r < 0 ↔ c.Failed v s

def HandedOn (v : Vfs σ) (s : Sys σ) : PosixCall → Prop
  | .file c => c.HandedOn v s
  | _ => False

/-- What a successful call has to return is not negative: the position a seek asks for, the
process id given to `sys_waitpid`. -/
def Representable (v : Vfs σ) (s : Sys σ) : PosixCall → Prop
  | .lseek fd offset whence st => ∀ i ∈ s.validFd fd,
      (whence = 0 → 0 ≤ toInt64 offset) ∧
      (whence = 1 → 0 ≤ toInt64 ((s.task.fdTable i).offset + offset)) ∧
      (whence = 2 → 0 ≤ toInt64 ((s.statOf v (s.fdPath i) st).2.1.size + offset))
  | .waitpid pid => ∀ c ∈ s.kernel.schedGetThreadById (pid % 2 ^ 32).toNat,
      (s.kernel.tasks c).state = .terminated → pid % 2 ^ 32 < 2 ^ 31
  | _ => True

end PosixCall
end SageOS
