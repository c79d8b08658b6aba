import SageOS.Kernel

/-!
# Loading an executable

The part of the loader that touches kernel state: validation of the header, the range check of
the load segments, the address span that `sys_execve` records in the task, and the arena blocks
for the argument vectors and the process stack. Copying the segments writes only memory that the
kernel state does not contain. A successful load never returns to its caller.
-/
namespace SageOS

/-- Little-endian value of the `n` bytes at `off`; bytes beyond the buffer read as zero. -/
def readLE (data : Bytes) (off : ℕ) : ℕ → ℕ
  | 0 => 0
  | n + 1 => (data.getD off 0).toNat + 256 * readLE data (off + 1) n

namespace Elf

def elfVaddrMin : ℕ := 0x100000

def elfVaddrMax : ℕ := 0xFF000000

structure Phdr where
  type : ℕ
  vaddr : ℕ
  memsz : ℕ

def phoff (data : Bytes) : ℕ := readLE data 32 8

def phnum (data : Bytes) : ℕ := readLE data 56 2

def phdr (data : Bytes) (i : ℕ) : Phdr where
  type := readLE data (phoff data + 56 * i) 4
  vaddr := readLE data (phoff data + 56 * i + 16) 8
  memsz := readLE data (phoff data + 56 * i + 40) 8

def phdrs (data : Bytes) : List Phdr := (List.range (phnum data)).map (phdr data)

def loads (data : Bytes) : List Phdr := (phdrs data).filter (·.type = 1)

def elfValidate (machine : ℕ) (data : Bytes) : Prop :=
  64 ≤ data.length ∧ readLE data 0 4 = 0x464C457F ∧ readLE data 4 1 = 2 ∧ readLE data 5 1 = 1 ∧
    readLE data 16 2 = 2 ∧ readLE data 18 2 = machine ∧ phoff data ≠ 0 ∧ phnum data ≠ 0

instance (machine : ℕ) (data : Bytes) : Decidable (elfValidate machine data) :=
  inferInstanceAs (Decidable (_ ∧ _))

def inRange (p : Phdr) : Prop :=
  elfVaddrMin ≤ p.vaddr ∧ (p.vaddr + p.memsz) % 2 ^ 64 ≤ elfVaddrMax

instance (p : Phdr) : Decidable (inRange p) := inferInstanceAs (Decidable (_ ∧ _))

/-- Blocks for `argv`, `envp` and the stack; the first two are released before the jump, and stay
allocated when there is no stack. -/
def allocStack (a : Arena) (argc envc : ℕ) : Bool × Arena :=
  let argv := a.sageMalloc ((argc + 1) * 8)
  let a₁ := argv.elim a (·.2)
  let envp := a₁.sageMalloc ((envc + 1) * 8)
  let a₂ := envp.elim a₁ (·.2)
  match a₂.sageMalloc 65536 with
  | none => (false, a₂)
  | some (_, a₃) =>
    let a₄ := envp.elim a₃ fun r => a₃.sageFree r.1
    (true, argv.elim a₄ fun r => a₄.sageFree r.1)

/-- `none` when control passes to the program. -/
def elfExec (machine : ℕ) (data : Bytes) (argc envc : ℕ) (a : Arena) : Option ℤ × Arena :=
  if ¬ elfValidate machine data ∨ ¬ ∀ p ∈ loads data, inRange p then (some (-1), a)
  else
    let r := allocStack a argc envc
    (if r.1 then none else some (-1), r.2)

def span (data : Bytes) : ℕ × ℕ :=
  (loads data).foldl (fun s p =>
    (min s.1 p.vaddr, max s.2 ((p.vaddr + p.memsz) % 2 ^ 64))) (2 ^ 64 - 1, 0)

def recordSpan (data : Bytes) (t : Thread) : Thread :=
  let s := span data
  let heap := (s.2 + 4095) % 2 ^ 64 / 4096 * 4096
  { t with
    elfBase := s.1
    elfSize := (s.2 + 2 ^ 64 - s.1) % 2 ^ 64
    heapBase := heap
    heapEnd := heap
    heapLimit := (heap + 64 * 1024 * 1024) % 2 ^ 64 }

/-- A child of `vfork` saves the image of its parent once, if there is memory for it. -/
def saveParentImage (k : Kernel) (t : ℕ) : Kernel :=
  match (k.tasks t).parent with
  | none => k
  | some p =>
    if 0 < (k.tasks p).elfSize ∧ (k.tasks p).savedElfData = none then
      match k.arena.sageMalloc (k.tasks p).elfSize with
      | none => k
      | some (ptr, a) =>
        { k with arena := a }.modifyTask p fun th => { th with savedElfData := some ptr }
    else k

end Elf
end SageOS
