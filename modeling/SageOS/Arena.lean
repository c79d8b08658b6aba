import Mathlib.Tactic

/-!
# The kernel arena

`sageMalloc` serves a request from the first free block that is large enough, splitting it when
the rest can hold a block, and otherwise from the bump pointer. `sageFree` puts a block back in
address order and merges it with its neighbours. Addresses are offsets into `sage_heap`; sizes are
64-bit values, so adding the header or the bump pointer can wrap.
-/
namespace SageOS

def sageArenaSize : ℕ := 32 * 1024 * 1024

def allocHeaderSize : ℕ := 16

structure FreeBlock where
  addr : ℕ
  size : ℕ
  deriving DecidableEq, Repr

structure Arena where
  bump : ℕ
  freeList : List FreeBlock
  userSize : ℕ → ℕ

namespace Arena

def empty : Arena := ⟨0, [], fun _ => 0⟩

def align (size : ℕ) : ℕ := (size + 15) % 2 ^ 64 / 16 * 16

def needed (size : ℕ) : ℕ := align ((size + allocHeaderSize) % 2 ^ 64)

/-- The first block that fits, the size taken from it and the list without it. -/
def firstFit (need : ℕ) : List FreeBlock → Option (ℕ × ℕ × List FreeBlock)
  | [] => none
  | b :: rest =>
    if need ≤ b.size then
      if need + 32 ≤ b.size then some (b.addr, need, ⟨b.addr + need, b.size - need⟩ :: rest)
      else some (b.addr, b.size, rest)
    else (firstFit need rest).map fun r => (r.1, r.2.1, b :: r.2.2)

def writeHeader (a : Arena) (header total : ℕ) : Arena :=
  let user := (total + 2 ^ 64 - allocHeaderSize) % 2 ^ 64
  { a with userSize := Function.update a.userSize header user }

def sageMalloc (a : Arena) (size : ℕ) : Option (ℕ × Arena) :=
  if size = 0 then none
  else
    match firstFit (needed size) a.freeList with
    | some (addr, total, rest) =>
      some (addr + allocHeaderSize, { a with freeList := rest }.writeHeader addr total)
    | none =>
      let bump := (a.bump + needed size) % 2 ^ 64
      if sageArenaSize < bump then none
      else some (a.bump + allocHeaderSize,
        { a with bump := bump }.writeHeader a.bump (needed size))

def coalesce (b : FreeBlock) : List FreeBlock → List FreeBlock
  | [] => [b]
  | c :: rest =>
    if b.addr + b.size = c.addr then ⟨b.addr, b.size + c.size⟩ :: rest else b :: c :: rest

/-- Insertion in address order; the block is merged with its successor and then its predecessor. -/
def insertFree (b : FreeBlock) : List FreeBlock → List FreeBlock
  | [] => [b]
  | c :: rest =>
    if c.addr < b.addr then
      match rest with
      | [] => coalesce c [b]
      | d :: _ => if d.addr < b.addr then c :: insertFree b rest else coalesce c (coalesce b rest)
    else coalesce b (c :: rest)

def sageFree (a : Arena) (ptr : ℕ) : Arena :=
  let header := ptr - allocHeaderSize
  let total := align ((a.userSize header + allocHeaderSize) % 2 ^ 64)
  { a with freeList := insertFree ⟨header, total⟩ a.freeList }

end Arena
end SageOS
