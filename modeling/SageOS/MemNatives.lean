import SageOS.Binary64
import SageOS.GuardedRun
import SageOS.CString

/-!
# The memory natives of the interpreter

A pointer object holds an address, a size and whether it owns its block. `mem_alloc` and
`struct_new` make owners, `ptr_add` makes aliases whose size is what is left of the block and zero
when nothing is. A size of zero is also the mark of a block of unknown size, for which `mem_read`
and `mem_write` check nothing. Each object carries the block it was derived from; the collector and
`mem_free` release a block through its owner. Numbers are bit patterns of doubles.
-/
namespace SageOS
open Binary64

inductive MemType
  | byte | int | double | string | other
  deriving DecidableEq

namespace MemType

def readSize : MemType → ℕ
  | .byte | .string => 1
  | .int => 4
  | .double => 8
  | .other => 0

def writeSize : MemType → ℕ
  | .byte => 1
  | .int => 4
  | .double => 8
  | .string | .other => 0

end MemType

structure PointerValue where
  ptr : ℕ
  size : ℕ
  owned : Bool
  origin : ℕ
  deriving DecidableEq

structure Allocation where
  base : ℕ
  size : ℕ
  live : Bool
  deriving DecidableEq

structure Touch where
  start : ℕ
  length : ℕ
  deriving DecidableEq

abbrev Memory := ℕ → UInt8

namespace Memory

def strnlen (mem : Memory) (start : ℕ) : ℕ → ℕ
  | 0 => 0
  | limit + 1 => if mem start = 0 then 0 else strnlen mem (start + 1) limit + 1

def load (mem : Memory) (start length : ℕ) : Bytes :=
  (List.range length).map fun i => mem ((start + i) % 2 ^ 64)

def store (mem : Memory) (start : ℕ) : Bytes → Memory
  | [] => mem
  | x :: xs => Function.update (store mem (start + 1) xs) (start % 2 ^ 64) x

def littleEndian (length n : ℕ) : Bytes :=
  (List.range length).map fun i => (n / 256 ^ i % 256).toUInt8

end Memory

open Memory
namespace PointerValue
variable (p : PointerValue)

/-- Reading a string stops at the terminator or at the end of the block; without a size it only
stops at the terminator. -/
def readString (mem : Memory) (base offset : ℕ) : Option Touch × Option Bytes :=
  let limit := if 0 < p.size then p.size - offset else 2 ^ 64 - base
  let length := strnlen mem base limit
  if length < limit then (some ⟨base, length + 1⟩, some (load mem base length))
  else (some ⟨base, limit⟩, none)

/-- The bytes touched and the bytes of the result. -/
def memRead (mem : Memory) (x : UInt64) (type : MemType) : Option Touch × Option Bytes :=
  if p.ptr = 0 then (none, none)
  else if isNegative x then (none, none)
  else
    let offset := toSize x
    if 0 < p.size ∧ p.size < (offset + type.readSize) % 2 ^ 64 then (none, none)
    else
      let base := (p.ptr + offset) % 2 ^ 64
      match type with
      | .byte | .int | .double =>
        (some ⟨base, type.readSize⟩, some (load mem base type.readSize))
      | .string => p.readString mem base offset
      | .other => (none, none)

/-- `value` is absent when it is not a number. -/
def memWrite (mem : Memory) (x : UInt64) (type : MemType) (value : Option UInt64) :
    Option Touch × Memory :=
  if p.ptr = 0 then (none, mem)
  else if isNegative x then (none, mem)
  else
    let offset := toSize x
    if 0 < p.size ∧ 0 < type.writeSize ∧ p.size < (offset + type.writeSize) % 2 ^ 64 then
      (none, mem)
    else
      let base := (p.ptr + offset) % 2 ^ 64
      match type, value with
      | .byte, some v => (some ⟨base, 1⟩, store mem base [((toInt32 v) % 256).toNat.toUInt8])
      | .int, some v =>
        (some ⟨base, 4⟩, store mem base (littleEndian 4 ((toInt32 v) % 2 ^ 32).toNat))
      | .double, some v => (some ⟨base, 8⟩, store mem base (littleEndian 8 v.toNat))
      | _, _ => (none, mem)

def ptrAdd (x : UInt64) : PointerValue :=
  let offset := toInt32 x
  let unsigned := (offset % 2 ^ 64).toNat
  { ptr := ((p.ptr + offset) % 2 ^ 64).toNat
    size := if unsigned < p.size then p.size - unsigned else 0
    owned := false
    origin := p.origin }

end PointerValue

structure MemState where
  objs : ℕ → Option PointerValue := fun _ => none
  nextObj : ℕ := 0
  allocs : ℕ → Option Allocation := fun _ => none
  nextAlloc : ℕ := 0
  mem : Memory := fun _ => 0

def memAllocMax : ℕ := 1024 * 1024 * 64

namespace MemState
variable (s : MemState)

def addObj (p : PointerValue) : MemState :=
  { s with objs := Function.update s.objs s.nextObj (some p), nextObj := s.nextObj + 1 }

def addBlock (base size : ℕ) : MemState :=
  let s' : MemState :=
    { s with
      allocs := Function.update s.allocs s.nextAlloc (some ⟨base, size, true⟩)
      nextAlloc := s.nextAlloc + 1
      mem := store s.mem base (List.replicate size 0) }
  s'.addObj ⟨base, size, true, s.nextAlloc⟩

/-- `answer` is what `calloc` returns. -/
def memAlloc (x : UInt64) (answer : Option ℕ) : MemState :=
  if toSize x = 0 ∨ memAllocMax < toSize x then s
  else
    match answer with
    | none => s
    | some base => s.addBlock base (toSize x)

def structNew (x : UInt64) (answer : Option ℕ) : MemState :=
  match answer with
  | none => s
  | some base => s.addBlock base (toSize x)

def ptrAdd (i : ℕ) (x : UInt64) : MemState :=
  match s.objs i with
  | none => s
  | some p => s.addObj (p.ptrAdd x)

def freeBlock (p : PointerValue) : MemState :=
  let released := (s.allocs p.origin).map fun a => { a with live := false }
  if p.ptr ≠ 0 ∧ p.owned = true then
    { s with allocs := Function.update s.allocs p.origin released }
  else s

def memFree (i : ℕ) : MemState :=
  match s.objs i with
  | none => s
  | some p =>
    if p.ptr ≠ 0 ∧ p.owned = true then
      { s.freeBlock p with objs := Function.update s.objs i (some ⟨0, 0, false, p.origin⟩) }
    else s

/-- The collector drops an object that the program can no longer reach. -/
def gcRelease (i : ℕ) : MemState :=
  match s.objs i with
  | none => s
  | some p => { s.freeBlock p with objs := Function.update s.objs i none }

end MemState

inductive MemAccess
  | read (x : UInt64) (type : MemType)
  | write (x : UInt64) (type : MemType) (value : Option UInt64)

namespace MemAccess

def touch (mem : Memory) (p : PointerValue) : MemAccess → Option Touch
  | .read x type => (p.memRead mem x type).1
  | .write x type value => (p.memWrite mem x type value).1

def effect (mem : Memory) (p : PointerValue) : MemAccess → Memory
  | .read .. => mem
  | .write x type value => (p.memWrite mem x type value).2

end MemAccess

inductive MemEvent
  | alloc (x : UInt64) (answer : Option ℕ)
  | structNew (x : UInt64) (answer : Option ℕ)
  | ptrAdd (i : ℕ) (x : UInt64)
  | free (i : ℕ)
  | release (i : ℕ)
  | access (i : ℕ) (a : MemAccess)

namespace MemEvent

def step (s : MemState) : MemEvent → MemState
  | .alloc x answer => s.memAlloc x answer
  | .structNew x answer => s.structNew x answer
  | .ptrAdd i x => s.ptrAdd i x
  | .free i => s.memFree i
  | .release i => s.gcRelease i
  | .access i a =>
    match s.objs i with
    | none => s
    | some p => { s with mem := a.effect s.mem p }

/-- What `calloc` promises: a block that is not at the null address, lies in the lower half of the
address space and overlaps no other block in use. -/
def FreshBlock (s : MemState) (base size : ℕ) : Prop :=
  0 < base ∧ base + size ≤ 2 ^ 63 ∧
    ∀ j a, s.allocs j = some a → a.live = true → a.base + a.size ≤ base ∨ base + size ≤ a.base

def Contract (s : MemState) : MemEvent → Prop
  | .alloc x (some base) | .structNew x (some base) => FreshBlock s base (toSize x)
  | _ => True

end MemEvent

namespace MemState

def Live (s : MemState) (origin : ℕ) : Prop := ∃ a, s.allocs origin = some a ∧ a.live = true

/-- The touched bytes belong to a block that has not been released. -/
def Inside (s : MemState) (origin : ℕ) (t : Touch) : Prop :=
  ∃ a, s.allocs origin = some a ∧ a.live = true ∧ a.base ≤ t.start ∧
    t.start + t.length ≤ a.base + a.size

/-- The access is refused, or touches only the block the pointer was derived from. -/
def Safe (s : MemState) (p : PointerValue) (a : MemAccess) : Prop :=
  ∀ t, a.touch s.mem p = some t → s.Inside p.origin t

end MemState
end SageOS
