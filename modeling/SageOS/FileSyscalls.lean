import SageOS.Elf
import SageOS.Vfs

/-!
# File system calls

The calls of the current task that reach the virtual file system. A task with
`PERM_VFS_CAP_ONLY` must hold a capability whose path is a prefix of the path it names, as the
bytes are written; descriptors keep the path they were opened with, and `sys_execve` asks for no
capability at all. The error macros are negative already, so `-VFS_EINVAL` is positive.
-/
namespace SageOS
variable {σ : Type}

def oWronly : UInt32 := 1
def oRdwr : UInt32 := 2
def oCreat : UInt32 := 64
def oExcl : UInt32 := 128
def oTrunc : UInt32 := 512
def oAppend : UInt32 := 1024

def vfsDirentMax : ℕ := 64

/-- The machine as a file system call sees it. -/
structure Sys (σ : Type) where
  kernel : Kernel
  vfs : VfsState σ
  console : Bytes := []

/-- One iteration of the loop of `task_has_vfs_cap`. -/
def IpcCapability.covers (cap : IpcCapability) (path : Bytes) (right : UInt32) : Prop :=
  cap.isValid ∧ (cap.objectType = .dir ∨ cap.objectType = .file) ∧ cap.hasRight right ∧
    strncmp path cap.path.chars cap.path.chars.length = 0 ∧
    if cap.objectType = .dir then
      path.getD cap.path.chars.length 0 = 0 ∨ path.getD cap.path.chars.length 0 = slash ∨
        strcmp cap.path.chars [slash] = 0
    else strcmp path cap.path.chars = 0

instance (cap : IpcCapability) (path : Bytes) (right : UInt32) :
    Decidable (cap.covers path right) :=
  inferInstanceAs (Decidable (_ ∧ _))

def Thread.capOnly (t : Thread) : Prop := t.permissions &&& permVfsCapOnly ≠ 0

instance (t : Thread) : Decidable t.capOnly := inferInstanceAs (Decidable (_ ≠ _))

def taskHasVfsCap (k : Kernel) (t : ℕ) (path : Bytes) (right : UInt32) : Prop :=
  (k.tasks t).capOnly → ∃ i < ipcCapMaxPerTask, ((k.capTable t).caps i).covers path right

instance (k : Kernel) (t : ℕ) (path : Bytes) (right : UInt32) :
    Decidable (taskHasVfsCap k t path right) :=
  inferInstanceAs (Decidable (_ → _))

def toInt64 (n : ℤ) : ℤ := (n + 2 ^ 63) % 2 ^ 64 - 2 ^ 63

namespace Sys
variable (v : Vfs σ) (s : Sys σ)

def task : Thread := s.kernel.tasks s.kernel.current

def mayAccess (path : Bytes) (right : UInt32) : Prop :=
  taskHasVfsCap s.kernel s.kernel.current path right

instance (path : Bytes) (right : UInt32) : Decidable (s.mayAccess path right) :=
  inferInstanceAs (Decidable (taskHasVfsCap _ _ _ _))

def setFd (fd : ℕ) (e : FdEntry) : Sys σ :=
  { s with kernel := s.kernel.modifyTask s.kernel.current fun t =>
      { t with fdTable := Function.update t.fdTable fd e } }

def validFd (fd : ℤ) : Option ℕ :=
  if 0 ≤ fd ∧ fd < maxFd ∧ (s.task.fdTable fd.toNat).valid = true then some fd.toNat else none

def advance (fd : ℕ) (ret : ℤ) : Sys σ :=
  if 0 ≤ ret then
    s.setFd fd { s.task.fdTable fd with offset := toInt64 ((s.task.fdTable fd).offset + ret) }
  else s

def sysWrite (fd : ℤ) (buf : Option Bytes) : ℤ × Sys σ :=
  match buf with
  | none => (-vfsEINVAL, s)
  | some data =>
    if fd = 1 ∨ fd = 2 then (data.length, { s with console := s.console ++ data })
    else
      match s.validFd fd with
      | none => (-vfsEINVAL, s)
      | some i =>
        let e := s.task.fdTable i
        if ¬ s.mayAccess e.path.chars ipcCapRightVfsWrite then (-vfsEACCES, s)
        else
          let r := v.vfsWrite e.path.chars (e.offset % 2 ^ 64).toNat data s.vfs
          (r.1, { s with vfs := r.2.2 }.advance i r.1)

/-- Returns the filled buffer as well. -/
def sysRead (fd : ℤ) (buf : Option Bytes) (count : ℕ) : ℤ × Option Bytes × Sys σ :=
  match buf with
  | none => (-vfsEINVAL, none, s)
  | some data =>
    match s.validFd fd with
    | none => (-vfsEINVAL, some data, s)
    | some i =>
      let e := s.task.fdTable i
      if i = 0 then (0, some data, s)
      else if ¬ s.mayAccess e.path.chars ipcCapRightVfsRead then (-vfsEACCES, some data, s)
      else
        let r := v.vfsRead e.path.chars (e.offset % 2 ^ 64).toNat count data s.vfs
        (r.1, some r.2.1, { s with vfs := r.2.2 }.advance i r.1)

def openRight (flags : UInt32) : UInt32 :=
  if flags &&& (oWronly ||| oRdwr ||| oCreat ||| oTrunc) ≠ 0 then ipcCapRightVfsWrite
  else ipcCapRightVfsRead

/-- The lowest free descriptor from 3 up gets the path as it was given. -/
def installFd (path : Bytes) (flags : UInt32) (st : VfsStat) : ℤ × Sys σ :=
  match (List.range maxFd).find? (fun i => 3 ≤ i ∧ (s.task.fdTable i).valid = false) with
  | none => (-vfsENOSPC, s)
  | some fd =>
    (fd, s.setFd fd
      { valid := true
        path := strncpy 256 path
        flags := flags
        offset := if flags &&& oAppend ≠ 0 then toInt64 st.size else 0 })

/-- `st` is the uninitialised `VfsStat` on the stack. -/
def sysOpen (path : Option CStr) (flags : UInt32) (st : VfsStat) : ℤ × Sys σ :=
  match path with
  | none => (-vfsEINVAL, s)
  | some ⟨p, _⟩ =>
    if vfsMaxPath ≤ p.length then (-vfsEINVAL, s)
    else if ¬ s.mayAccess p (openRight flags) then (-vfsEACCES, s)
    else
      let r := v.vfsStat p st s.vfs
      let s₁ : Sys σ := { s with vfs := r.2.2 }
      if r.1 < 0 then
        if flags &&& oCreat ≠ 0 then
          let c := v.vfsCreate p s₁.vfs
          if c.1 < 0 then (c.1, { s₁ with vfs := c.2.2 })
          else { s₁ with vfs := c.2.2 }.installFd p flags r.2.1
        else (-vfsENOENT, s₁)
      else if flags &&& oCreat ≠ 0 ∧ flags &&& oExcl ≠ 0 then (-vfsEEXIST, s₁)
      else if flags &&& oTrunc ≠ 0 ∧ r.2.1.type = .file then
        { s₁ with vfs := (v.vfsCreate p s₁.vfs).2.2 }.installFd p flags r.2.1
      else s₁.installFd p flags r.2.1

/-- `sys_unlink` and `sys_mkdir` differ in the operation they forward. -/
def sysModify (op : Bytes → VfsState σ → ℤ × Unit × VfsState σ) (path : Option CStr) :
    ℤ × Sys σ :=
  match path with
  | none => (-vfsEINVAL, s)
  | some ⟨p, _⟩ =>
    if vfsMaxPath ≤ p.length then (-vfsEINVAL, s)
    else if ¬ s.mayAccess p ipcCapRightVfsWrite then (-vfsEACCES, s)
    else ((op p s.vfs).1, { s with vfs := (op p s.vfs).2.2 })

def sysUnlink (path : Option CStr) : ℤ × Sys σ := s.sysModify v.vfsUnlink path

def sysMkdir (path : Option CStr) : ℤ × Sys σ := s.sysModify v.vfsMkdir path

def sysChdir (path : Option CStr) (st : VfsStat) : ℤ × Sys σ :=
  match path with
  | none => (-vfsEINVAL, s)
  | some ⟨p, _⟩ =>
    if vfsMaxPath ≤ p.length then (-vfsEINVAL, s)
    else if ¬ s.mayAccess p ipcCapRightVfsRead then (-vfsEACCES, s)
    else
      let r := v.vfsStat p st s.vfs
      let s₁ : Sys σ := { s with vfs := r.2.2 }
      if r.1 < 0 then (-vfsENOENT, s₁)
      else if r.2.1.type ≠ .directory then (-vfsENOTDIR, s₁)
      else (0, { s₁ with kernel := s₁.kernel.modifyTask s₁.kernel.current fun t =>
        { t with cwd := strncpy 256 p } })

structure LinuxDirent where
  ino : ℕ
  off : ℕ
  reclen : ℕ
  type : ℕ
  name : Bytes

/-- The records that fit, packed from entry number `i` at position `total`. -/
def packDirents (count : ℕ) : ℕ → ℕ → List VfsDirEntry → ℕ × List LinuxDirent
  | _, total, [] => (total, [])
  | i, total, e :: es =>
    let reclen := (20 + e.name.chars.length + 7) / 8 * 8
    if count < total + reclen then (total, [])
    else
      let rest := packDirents count (i + 1) (total + reclen) es
      (rest.1, ⟨i + 1, total + reclen, reclen, if e.type = .directory then 4 else 8, e.name.chars⟩
        :: rest.2)

/-- `entries` is the uninitialised array on the stack. -/
def sysGetdents64 (fd : ℤ) (dirp : Bool) (count : ℕ) (entries : List VfsDirEntry) :
    ℤ × List LinuxDirent × Sys σ :=
  if dirp = false then (-vfsEINVAL, [], s)
  else
    match s.validFd fd with
    | none => (-vfsEINVAL, [], s)
    | some i =>
      let e := s.task.fdTable i
      if ¬ s.mayAccess e.path.chars ipcCapRightVfsRead then (-vfsEACCES, [], s)
      else
        let r := v.vfsReaddir e.path.chars vfsDirentMax entries s.vfs
        let s₁ : Sys σ := { s with vfs := r.2.2 }
        if r.1 < 0 then (r.1, [], s₁)
        else
          let packed := packDirents count 0 0 (r.2.1.take r.1.toNat)
          (packed.1, packed.2, s₁)

def toInt32 (n : ℕ) : ℤ := (n + 2 ^ 31 : ℤ) % 2 ^ 32 - 2 ^ 31

/-- `none` when control passes to the loaded program. -/
def sysExecve (machine : ℕ) (path : CStr) (argc envc : ℕ) (st : VfsStat) : Option ℤ × Sys σ :=
  let r := v.vfsStat path.chars st s.vfs
  let s₁ : Sys σ := { s with vfs := r.2.2 }
  if r.1 < 0 then (some (-vfsENOENT), s₁)
  else
    match s₁.kernel.arena.sageMalloc r.2.1.size with
    | none => (some (-vfsENOSPC), s₁)
    | some (ptr, a) =>
      let rd := v.vfsRead path.chars 0 r.2.1.size (List.replicate r.2.1.size 0) s₁.vfs
      let k : Kernel := { s₁.kernel with arena := a }
      if rd.1 ≠ toInt32 r.2.1.size then
        (some (-vfsEio), { s₁ with vfs := rd.2.2, kernel := { k with arena := a.sageFree ptr } })
      else
        let k₁ := (Elf.saveParentImage k k.current).modifyTask k.current (Elf.recordSpan rd.2.1)
        let x := Elf.elfExec machine rd.2.1 argc envc k₁.arena
        let a' := if x.1.isSome then x.2.sageFree ptr else x.2
        (x.1, { s₁ with vfs := rd.2.2, kernel := { k₁ with arena := a' } })

end Sys
end SageOS
