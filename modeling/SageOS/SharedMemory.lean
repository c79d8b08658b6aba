import SageOS.ElfLoadSafety
import SageOS.ThreadLifecycle

/-!
# Memory shared by all tasks

The memory that every task reads and writes, and what the calls of a child of `vfork` do to it:
`execve` copies the image of the parent to a buffer in the kernel heap and loads the program, `exit`
writes the copy back. Addresses are 64 bits wide and wrap around.
-/
namespace SageOS
open Kernel

/-- The kernel and the memory that all tasks share. -/
structure Shared where
  kernel : Kernel
  mem : ℕ → UInt8

/-- The offset of an address from a base; addresses wrap around. -/
def offsetFrom (base a : ℕ) : ℕ := (((a : ℤ) - base) % 2 ^ 64).toNat

def memcpy (mem : ℕ → UInt8) (dst src n : ℕ) : ℕ → UInt8 :=
  fun a => if offsetFrom dst a < n then mem ((src + offsetFrom dst a) % 2 ^ 64) else mem a

theorem offsetFrom_add (base : ℕ) {r : ℕ} (hr : r < 2 ^ 64) :
    offsetFrom base ((base + r) % 2 ^ 64) = r := by
  unfold offsetFrom
  omega

theorem add_offsetFrom (base : ℕ) {a : ℕ} (ha : a < 2 ^ 64) :
    (base + offsetFrom base a) % 2 ^ 64 = a := by
  unfold offsetFrom
  omega

theorem offsetFrom_lt (base a : ℕ) : offsetFrom base a < 2 ^ 64 := by
  unfold offsetFrom
  omega

namespace Elf
variable (data : Bytes)

def loadSegment (i : ℕ) (mem : ℕ → UInt8) : ℕ → UInt8 :=
  if (phdr data i).type = 1 then fun a =>
    let j := offsetFrom (phdr data i).vaddr a
    if j < segmentFilesz data i then data.getD (segmentOffset data i + j) 0
    else if j < (phdr data i).memsz then 0
    else mem a
  else mem

/-- The loop over the program headers, up to one that is refused. -/
def loadSegments : ℕ → ℕ → (ℕ → UInt8) → ℕ → UInt8
  | 0, _, mem => mem
  | n + 1, i, mem =>
    if Refused data i then mem else loadSegments n (i + 1) (loadSegment data i mem)

/-- A segment covers the address. -/
def Covers (i a : ℕ) : Prop :=
  (phdr data i).type = 1 ∧
    offsetFrom (phdr data i).vaddr a < max (segmentFilesz data i) (phdr data i).memsz

/-- Loading the file writes the address. -/
def LoadsAt (machine a : ℕ) : Prop :=
  elfValidate machine data ∧ ∃ i < phnum data, (∀ j ≤ i, ¬ Refused data j) ∧ Covers data i a

theorem loadSegment_of_not_covers {i a : ℕ} (h : ¬ Covers data i a) (mem : ℕ → UInt8) :
    loadSegment data i mem a = mem a := by
  unfold loadSegment
  by_cases ht : (phdr data i).type = 1
  · have hout : ¬ offsetFrom (phdr data i).vaddr a <
        max (segmentFilesz data i) (phdr data i).memsz := fun hlt => h ⟨ht, hlt⟩
    rw [if_pos ht]
    rw [if_neg (by omega), if_neg (by omega)]
  · rw [if_neg ht]

theorem loadSegments_of_not_loadsAt {machine : ℕ} (hv : elfValidate machine data) {a : ℕ}
    (ha : ¬ LoadsAt data machine a) (n i : ℕ) (hn : i + n ≤ phnum data)
    (hbefore : ∀ j < i, ¬ Refused data j) (mem : ℕ → UInt8) :
    loadSegments data n i mem a = mem a := by
  induction n generalizing i mem with
  | zero => rfl
  | succ n ih =>
    unfold loadSegments
    by_cases hr : Refused data i
    · rw [if_pos hr]
    · have hle : ∀ j ≤ i, ¬ Refused data j := by
        intro j hj
        rcases Nat.eq_or_lt_of_le hj with rfl | hlt
        · exact hr
        · exact hbefore j hlt
      rw [if_neg hr, ih (i + 1) (by omega) fun j hj => hle j (by omega)]
      apply loadSegment_of_not_covers
      intro hcov
      exact ha ⟨hv, i, by omega, hle, hcov⟩

end Elf

namespace Shared
variable (heap : ℕ)

/-- The copy that `sys_execve` makes of the image of the parent of the current task; `heap` is the
address of `sage_heap`. -/
def saveImage (m : Shared) : Shared where
  kernel := Elf.saveParentImage m.kernel m.kernel.current
  mem :=
    match (m.kernel.tasks m.kernel.current).parent with
    | none => m.mem
    | some p =>
      let t := m.kernel.tasks p
      if 0 < t.elfSize ∧ t.savedElfData = none then
        match m.kernel.arena.sageMalloc t.elfSize with
        | none => m.mem
        | some (ptr, _) => memcpy m.mem (heap + ptr) t.elfBase t.elfSize
      else m.mem

/-- `sys_execve` on the content of a file. -/
def execve (m : Shared) (machine : ℕ) (data : Bytes) (argc envc : ℕ) : Shared :=
  match m.kernel.arena.sageMalloc data.length with
  | none => m
  | some (ptr, a) =>
    let m₁ := saveImage heap { m with kernel := { m.kernel with arena := a } }
    let k := m₁.kernel.modifyTask m.kernel.current (Elf.recordSpan data)
    let x := Elf.elfExec machine data argc envc k.arena
    { kernel := { k with arena := if x.1.isSome then x.2.sageFree ptr else x.2 }
      mem := if Elf.elfValidate machine data then Elf.loadSegments data (Elf.phnum data) 0 m₁.mem
        else m₁.mem }

def brk (m : Shared) (addr : ℕ) : Shared :=
  let t := m.kernel.tasks m.kernel.current
  if addr = 0 ∨ addr < t.heapBase ∨ t.heapLimit < addr then m
  else { m with kernel := m.kernel.modifyTask m.kernel.current fun t => { t with heapEnd := addr } }

def write (m : Shared) (addr : ℕ) (value : UInt8) : Shared :=
  { m with mem := Function.update m.mem addr value }

/-- `sys_exit`: a saved image is written back first. -/
def exit (m : Shared) (code : ℤ) : Shared where
  kernel := m.kernel.sysExit code
  mem :=
    match (m.kernel.tasks m.kernel.current).parent with
    | none => m.mem
    | some p =>
      let t := m.kernel.tasks p
      match t.savedElfData with
      | none => m.mem
      | some ptr => memcpy m.mem t.elfBase (heap + ptr) t.elfSize

end Shared

/-- What a child of `vfork` does before it exits. -/
inductive ChildStep
  | execve (machine : ℕ) (data : Bytes) (argc envc : ℕ)
  | brk (addr : ℕ)
  | write (addr : ℕ) (value : UInt8)

def ChildStep.act (heap : ℕ) (m : Shared) : ChildStep → Shared
  | .execve machine data argc envc => m.execve heap machine data argc envc
  | .brk addr => m.brk addr
  | .write addr value => m.write addr value

end SageOS
