import SageOS.Arena

/-!
# The arena as memory

The same allocator at the level of memory: headers and free blocks lie in the arena itself, as
64-bit words. A free block holds its size and the address of the next one; a block in use holds the
size for the user and the tag. The loops follow the links, so they are given a number of rounds
that no list in the arena needs.
-/
namespace SageOS

inductive AllocTag
  | kernel | vm | vfs | ipc | parser | shell | other
  deriving DecidableEq, Repr

def AllocTag.code : AllocTag → ℕ
  | .kernel => 0
  | .vm => 1
  | .vfs => 2
  | .ipc => 3
  | .parser => 4
  | .shell => 5
  | .other => 6

/-- Where the linker puts `sage_heap`. -/
structure HeapPlace where
  base : ℕ
  pos : 0 < base
  aligned : base % 16 = 0
  fits : base + sageArenaSize < 2 ^ 64

/-- Address 0 is the null pointer. -/
structure Heap where
  bump : ℕ := 0
  freeList : ℕ := 0
  mem : ℕ → ℕ

namespace Heap
variable (h : Heap)

def store (addr value : ℕ) : Heap := { h with mem := Function.update h.mem addr value }

/-- A store of 32 bits keeps the other half of the word. -/
def storeTag (addr : ℕ) (tag : AllocTag) : Heap :=
  h.store addr (h.mem addr / 2 ^ 32 * 2 ^ 32 + tag.code)

def zeroFill (addr len : ℕ) : Heap :=
  { h with mem := fun a => if addr ≤ a ∧ a < addr + len then 0 else h.mem a }

def copy (dst src len : ℕ) : Heap :=
  { h with mem := fun a => if dst ≤ a ∧ a < dst + len then h.mem (src + (a - dst)) else h.mem a }

/-- A store through a link: the head of the list, or the next field of a block. -/
def setLink (prev : Option ℕ) (block : ℕ) : Heap :=
  match prev with
  | none => { h with freeList := block }
  | some p => h.store (p + 8) block

def walkLimit : ℕ := sageArenaSize

/-- The first block that fits, and the link to it. -/
def findFit (need : ℕ) : ℕ → Option ℕ → ℕ → Option (Option (Option ℕ × ℕ))
  | 0, _, _ => none
  | n + 1, prev, curr =>
    if curr = 0 then some none
    else if need ≤ h.mem curr then some (some (prev, curr))
    else findFit need n (some curr) (h.mem (curr + 8))

/-- The part of a free block that is used, and the heap without it in the list. -/
def takeBlock (prev : Option ℕ) (curr need : ℕ) : ℕ × Heap :=
  if need + 32 ≤ h.mem curr then
    let h₁ := h.store (curr + need) (h.mem curr - need)
    let h₂ := h₁.store (curr + need + 8) (h₁.mem (curr + 8))
    (need, h₂.setLink prev (curr + need))
  else (h.mem curr, h.setLink prev (h.mem (curr + 8)))

def writeHeader (header total : ℕ) (tag : AllocTag) : Heap :=
  let user := (total + 2 ^ 64 - allocHeaderSize) % 2 ^ 64
  ((h.store header user).storeTag (header + 8) tag).zeroFill (header + allocHeaderSize) user

variable (place : HeapPlace)

def sageMallocTagged (size : ℕ) (tag : AllocTag) : Option (ℕ × Heap) :=
  if size = 0 then some (0, h)
  else
    match h.findFit (Arena.needed size) walkLimit none h.freeList with
    | none => none
    | some (some (prev, curr)) =>
      let t := h.takeBlock prev curr (Arena.needed size)
      some (curr + allocHeaderSize, t.2.writeHeader curr t.1 tag)
    | some none =>
      let need := Arena.needed size
      let bump := (h.bump + need) % 2 ^ 64
      if sageArenaSize < bump then some (0, h)
      else
        some (place.base + h.bump + allocHeaderSize,
          { h with bump := bump }.writeHeader (place.base + h.bump) need tag)

def sageMalloc (size : ℕ) : Option (ℕ × Heap) := h.sageMallocTagged place size .kernel

def sageCallocTagged (count size : ℕ) (tag : AllocTag) : Option (ℕ × Heap) :=
  h.sageMallocTagged place (count * size % 2 ^ 64) tag

/-- The link behind which a block belongs in address order, and the block after it. -/
def findPlace (block : ℕ) : ℕ → Option ℕ → ℕ → Option (Option ℕ × ℕ)
  | 0, _, _ => none
  | n + 1, prev, curr =>
    if curr ≠ 0 ∧ curr < block then findPlace block n (some curr) (h.mem (curr + 8))
    else some (prev, curr)

def findLinkTo (block : ℕ) : ℕ → ℕ → Option ℕ
  | 0, _ => none
  | n + 1, p =>
    if p ≠ 0 ∧ h.mem (p + 8) ≠ block then findLinkTo block n (h.mem (p + 8)) else some p

def absorbNext (block : ℕ) : Heap :=
  let next := h.mem (block + 8)
  let h₁ := h.store block (h.mem block + h.mem next)
  h₁.store (block + 8) (h₁.mem (next + 8))

def coalesceNext (block : ℕ) : Heap :=
  if h.mem (block + 8) ≠ 0 ∧ block + h.mem block = h.mem (block + 8) then h.absorbNext block else h

def coalescePrev (block : ℕ) : Option Heap :=
  (h.findLinkTo block walkLimit h.freeList).map fun p =>
    if p ≠ 0 ∧ p + h.mem p = block then h.absorbNext p else h

def sageFree (ptr : ℕ) : Option Heap :=
  if ptr = 0 then some h
  else
    let block := ptr - allocHeaderSize
    let total := Arena.align ((h.mem block + allocHeaderSize) % 2 ^ 64)
    let h₁ := h.store block total
    match h₁.findPlace block walkLimit none h₁.freeList with
    | none => none
    | some (prev, curr) =>
      let h₂ := ((h₁.store (block + 8) curr).setLink prev block).coalesceNext block
      if prev = none then some h₂ else h₂.coalescePrev block

def tagAt (addr : ℕ) : AllocTag :=
  match h.mem addr % 2 ^ 32 with
  | 0 => .kernel
  | 1 => .vm
  | 2 => .vfs
  | 3 => .ipc
  | 4 => .parser
  | 5 => .shell
  | _ => .other

def sageRealloc (ptr size : ℕ) : Option (ℕ × Heap) :=
  if ptr = 0 then h.sageMalloc place size
  else if size = 0 then (h.sageFree ptr).map fun h₁ => (0, h₁)
  else
    let old := h.mem (ptr - allocHeaderSize)
    if size ≤ old then some (ptr, h)
    else
      match h.sageMallocTagged place size (h.tagAt (ptr - allocHeaderSize + 8)) with
      | none => none
      | some (np, h₁) =>
        if np = 0 then some (0, h₁)
        else ((h₁.copy np ptr old).sageFree ptr).map fun h₂ => (np, h₂)

end Heap
end SageOS
