import SageOS.CString

/-!
# Values and pools of the bytecode machine

A value is a type and the 64 bits of a union, read as a number or, in their lower half, as a
signed index. Arrays and dictionaries live in pools of fixed size with a mark that the collector
sets; strings are interned in one buffer. Arithmetic on doubles is a parameter: the operations
take and return bit patterns.
-/
namespace SageOS

inductive MetalValueType
  | nil | num | bool | str | arr | dict | fn | ptr
  deriving DecidableEq, Repr

structure MetalValue where
  type : MetalValueType := .nil
  bits : UInt64 := 0
  deriving DecidableEq, Repr

namespace MetalValue

/-- The `int` members of the union; the upper half of the union is taken as zero. -/
def ofInt (t : MetalValueType) (n : ℤ) : MetalValue := ⟨t, UInt64.ofNat (n % 2 ^ 32).toNat⟩

def int (v : MetalValue) : ℤ := toCInt v.bits.toNat

end MetalValue

def mvNil : MetalValue := {}

def mvNum (bits : UInt64) : MetalValue := ⟨.num, bits⟩

def mvBool (b : Bool) : MetalValue := ⟨.bool, if b then 1 else 0⟩

/-- Operations on the bit patterns of doubles, and the conversions to and from `int`. -/
structure DoubleOps where
  add : UInt64 → UInt64 → UInt64
  sub : UInt64 → UInt64 → UInt64
  mul : UInt64 → UInt64 → UInt64
  div : UInt64 → UInt64 → UInt64
  intMod : UInt64 → UInt64 → UInt64
  neg : UInt64 → UInt64
  lt : UInt64 → UInt64 → Bool
  le : UInt64 → UInt64 → Bool
  isZero : UInt64 → Bool
  toInt : UInt64 → ℤ
  ofInt : ℤ → UInt64

/-- Stand-ins for runs in which the arithmetic does not matter. -/
def plainDoubles : DoubleOps where
  add a _ := a
  sub a _ := a
  mul a _ := a
  div a _ := a
  intMod a _ := a
  neg := id
  lt _ _ := false
  le _ _ := false
  isZero a := a = 0
  toInt a := a.toNat
  ofInt n := UInt64.ofNat n.toNat

def metalTruthy (d : DoubleOps) (v : MetalValue) : Bool :=
  match v.type with
  | .nil => false
  | .bool => v.int ≠ 0
  | .num => !d.isZero v.bits
  | _ => true

/-- `OP_EQUAL`: the same type and, except for nil, the same payload. -/
def metalEqual (a b : MetalValue) : Bool :=
  a.type = b.type &&
    match a.type with
    | .nil => true
    | .num | .ptr => a.bits = b.bits
    | .bool => (a.int = 0) = (b.int = 0)
    | .str | .arr | .dict | .fn => a.int = b.int

def metalFnv1a (s : Bytes) : UInt32 :=
  s.foldl (fun hash c => (hash ^^^ c.toUInt32) * 16777619) 2166136261

def metalStringPool : ℕ := 2097152

/-- The string that starts at an index of the buffer. -/
def cstrAt (pool : Bytes) (i : ℕ) : Bytes := (pool.drop i).takeWhile (· ≠ 0)

def metalStringGet (pool : Bytes) (idx : ℤ) : Bytes :=
  if idx < 0 ∨ pool.length ≤ idx then [] else cstrAt pool idx.toNat

/-- The walk over the interned strings; every round advances by at least one byte. -/
def internSearch (pool s : Bytes) : ℕ → ℕ → Option ℕ
  | 0, _ => none
  | fuel + 1, search =>
    if search < pool.length then
      if cstrAt pool search = s then some search
      else internSearch pool s fuel (search + (cstrAt pool search).length + 1)
    else none

/-- The index, or `-1` when the buffer is full, and the buffer afterwards. -/
def metalStringIntern (pool s : Bytes) : ℤ × Bytes :=
  match internSearch pool s (pool.length + 1) 0 with
  | some i => (i, pool)
  | none =>
    if metalStringPool < pool.length + s.length + 1 then (-1, pool)
    else (pool.length, pool ++ s ++ [0])

def metalStringConcat (pool : Bytes) (a b : ℤ) : ℤ × Bytes :=
  let s := metalStringGet pool a ++ metalStringGet pool b
  if 4096 < s.length then (-1, pool) else metalStringIntern pool s

def sageIsspace (c : UInt8) : Bool := c = 32 || c = 9 || c = 10 || c = 13

/-- The tokens of `split`, each cut at 63 bytes. -/
def splitTokens : ℕ → Bytes → List Bytes
  | 0, _ => []
  | fuel + 1, s =>
    match s.dropWhile (sageIsspace ·) with
    | [] => []
    | c :: rest =>
      ((c :: rest).takeWhile (!sageIsspace ·)).take 63 ::
        splitTokens fuel ((c :: rest).dropWhile (!sageIsspace ·))

/-- The bytes that `strip` interns: of an empty rest it takes the terminating zero. -/
def stripBytes (s : Bytes) : Bytes :=
  match s.dropWhile (sageIsspace ·) with
  | [] => [0]
  | c :: rest => c :: (rest.reverse.dropWhile (sageIsspace ·)).reverse

def metalPoolMax : ℕ := 1024

def metalArrayMaxElems : ℕ := 256

def metalDictMaxEntries : ℕ := 64

structure MetalArray where
  elems : List MetalValue := []
  inUse : Bool := false

structure MetalDict where
  entries : List (ℤ × MetalValue) := []
  inUse : Bool := false

structure MetalHeap where
  arrays : ℕ → MetalArray := fun _ => {}
  arrayCount : ℕ := 0
  dicts : ℕ → MetalDict := fun _ => {}
  dictCount : ℕ := 0

namespace MetalHeap
variable (h : MetalHeap)

def setArray (i : ℕ) (a : MetalArray) : MetalHeap :=
  { h with arrays := Function.update h.arrays i a }

def setDict (i : ℕ) (d : MetalDict) : MetalHeap := { h with dicts := Function.update h.dicts i d }

/-- An index that every pool operation accepts. -/
def poolIndex (i : ℤ) : Option ℕ := if i < 0 ∨ metalPoolMax ≤ i then none else some i.toNat

/-- Marking follows arrays and dictionaries; each level of it marks an object that was not marked
before, so the two pools bound its depth. -/
def gcMarkValue : ℕ → MetalHeap → MetalValue → MetalHeap
  | 0, h, _ => h
  | fuel + 1, h, v =>
    match v.type, poolIndex v.int with
    | .arr, some i =>
      if (h.arrays i).inUse then h
      else (h.arrays i).elems.foldl (gcMarkValue fuel)
        (h.setArray i { h.arrays i with inUse := true })
    | .dict, some i =>
      if (h.dicts i).inUse then h
      else ((h.dicts i).entries.map (·.2)).foldl (gcMarkValue fuel)
        (h.setDict i { h.dicts i with inUse := true })
    | _, _ => h

/-- No slot is in use. -/
def cleared : MetalHeap :=
  { h with
    arrays := fun i => if i < h.arrayCount then { h.arrays i with inUse := false } else h.arrays i
    dicts := fun i => if i < h.dictCount then { h.dicts i with inUse := false } else h.dicts i }

/-- `metal_vm_gc` from the values on the stack and in the live scopes. -/
def gc (roots : List MetalValue) : MetalHeap :=
  roots.foldl (gcMarkValue (2 * metalPoolMax + 1)) h.cleared

/-- The first slot that the last collection left unmarked. -/
def reuseArray : Option (ℕ × MetalHeap) :=
  ((List.range h.arrayCount).find? fun i => !(h.arrays i).inUse).map fun i =>
    (i, h.setArray i { inUse := true })

def reuseDict : Option (ℕ × MetalHeap) :=
  ((List.range h.dictCount).find? fun i => !(h.dicts i).inUse).map fun i =>
    (i, h.setDict i { inUse := true })

/-- `none` stands for `-1`: the pool is full even after a collection. -/
def metalArrayNew (roots : List MetalValue) : Option ℕ × MetalHeap :=
  match h.reuseArray with
  | some (i, h₁) => (some i, h₁)
  | none =>
    if metalPoolMax ≤ h.arrayCount then
      match (h.gc roots).reuseArray with
      | some (i, h₁) => (some i, h₁)
      | none => (none, h.gc roots)
    else
      (some h.arrayCount,
        { h with arrayCount := h.arrayCount + 1 }.setArray h.arrayCount { inUse := true })

def metalDictNew (roots : List MetalValue) : Option ℕ × MetalHeap :=
  match h.reuseDict with
  | some (i, h₁) => (some i, h₁)
  | none =>
    if metalPoolMax ≤ h.dictCount then
      match (h.gc roots).reuseDict with
      | some (i, h₁) => (some i, h₁)
      | none => (none, h.gc roots)
    else
      (some h.dictCount,
        { h with dictCount := h.dictCount + 1 }.setDict h.dictCount { inUse := true })

def metalArrayPush (idx : ℤ) (v : MetalValue) : MetalHeap :=
  match poolIndex idx with
  | none => h
  | some i =>
    if metalArrayMaxElems ≤ (h.arrays i).elems.length then h
    else h.setArray i { h.arrays i with elems := (h.arrays i).elems ++ [v] }

def metalArrayLen (idx : ℤ) : ℤ := (poolIndex idx).elim 0 fun i => (h.arrays i).elems.length

def metalArrayGet (idx index : ℤ) : MetalValue :=
  match poolIndex idx with
  | none => mvNil
  | some i =>
    if index < 0 ∨ (h.arrays i).elems.length ≤ index then mvNil
    else (h.arrays i).elems.getD index.toNat mvNil

def metalArraySet (idx index : ℤ) (v : MetalValue) : MetalHeap :=
  match poolIndex idx with
  | none => h
  | some i =>
    if index < 0 ∨ (h.arrays i).elems.length ≤ index then h
    else h.setArray i { h.arrays i with elems := (h.arrays i).elems.set index.toNat v }

/-- The value of the first entry with the key is replaced, or an entry is added if it fits. -/
def dictStore (entries : List (ℤ × MetalValue)) (key : ℤ) (v : MetalValue) :
    List (ℤ × MetalValue) :=
  match entries.findIdx? (·.1 = key) with
  | some i => entries.set i (key, v)
  | none => if entries.length < metalDictMaxEntries then entries ++ [(key, v)] else entries

def metalDictSet (idx key : ℤ) (v : MetalValue) : MetalHeap :=
  match poolIndex idx with
  | none => h
  | some i => h.setDict i { h.dicts i with entries := dictStore (h.dicts i).entries key v }

def metalDictGet (idx key : ℤ) : MetalValue :=
  match poolIndex idx with
  | none => mvNil
  | some i => (((h.dicts i).entries.find? (·.1 = key)).map (·.2)).getD mvNil

end MetalHeap
end SageOS
