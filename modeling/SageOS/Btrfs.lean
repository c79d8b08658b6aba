import SageOS.Fat32Scan

/-!
# The BTRFS reader

The superblock names the root tree, the size of a node and an array of chunks that translates
logical into physical addresses. A search descends from a node by the keys of its children until it
comes to a node of level 0. The model counts sector reads and gives fuel to the loops over the tree
and over the extents of a file. What lies in memory behind the bytes that a read has filled is
arbitrary, since neither the number of items nor the size of the chunk array is checked.
-/
namespace SageOS
open Counted

def le64 (s : Sector) (i : ℕ) : ℕ := le32 s i + 2 ^ 32 * le32 s (i + 4)

abbrev BtrfsNode := Sector

structure BtrfsKey where
  objectid : ℕ
  type : ℕ
  offset : ℕ
  deriving DecidableEq

def btrfsKeyAt (s : Sector) (i : ℕ) : BtrfsKey where
  objectid := le64 s i
  type := (s (i + 8)).toNat
  offset := le64 s (i + 9)

def btrfsCompareKeys (a b : BtrfsKey) : ℤ :=
  if a.objectid < b.objectid then -1
  else if b.objectid < a.objectid then 1
  else if a.type < b.type then -1
  else if b.type < a.type then 1
  else if a.offset < b.offset then -1
  else if b.offset < a.offset then 1
  else 0

namespace BtrfsNode
variable (node : BtrfsNode)

def level : ℕ := le16 node 64

def nritems : ℕ := le32 node 76

/-- The number of items as an `int`, for loops that count up to it. -/
def itemCount : ℕ := if node.nritems < 2 ^ 31 then node.nritems else 0

def ptrKey (i : ℕ) : BtrfsKey := btrfsKeyAt node (81 + 33 * i)

def blockptr (i : ℕ) : ℕ := le64 node (81 + 33 * i + 17)

def itemKey (i : ℕ) : BtrfsKey := btrfsKeyAt node (81 + 25 * i)

def itemData (i : ℕ) : ℕ := 101 + le32 node (81 + 25 * i + 17)

def itemSize (i : ℕ) : ℕ := le32 node (81 + 25 * i + 21)

/-- The last child, from `slot` on and over at most `rounds` more, whose key is not after `key`. -/
def childSlot (key : BtrfsKey) : ℕ → ℕ → ℕ
  | 0, slot => slot
  | rounds + 1, slot =>
    if btrfsCompareKeys key (node.ptrKey (slot + 1)) < 0 then slot
    else childSlot key rounds (slot + 1)

def child (key : BtrfsKey) : ℕ := node.blockptr (node.childSlot key (node.itemCount - 1) 0)

def findItem (key : BtrfsKey) : ℕ → ℕ → Option ℕ
  | 0, _ => none
  | rounds + 1, i =>
    if btrfsCompareKeys key (node.itemKey i) = 0 then some i
    else if btrfsCompareKeys key (node.itemKey i) < 0 then none
    else findItem key rounds (i + 1)

def findName (objectid : ℕ) (name : Bytes) : ℕ → ℕ → Option ℕ
  | 0, _ => none
  | rounds + 1, i =>
    if (node.itemKey i).objectid = objectid ∧ (node.itemKey i).type = 96 then
      if le16 node (node.itemData i + 27) = name.length ∧
          (List.range name.length).map (fun j => node (node.itemData i + 30 + j)) = name then
        some (le64 node (node.itemData i))
      else findName objectid name rounds (i + 1)
    else if objectid < (node.itemKey i).objectid then none
    else findName objectid name rounds (i + 1)

/-- The last extent of the file, among the first items, that starts at the offset or before it. -/
def findExtent (objectid offset : ℕ) : ℕ → Option ℕ
  | 0 => none
  | i + 1 =>
    if (node.itemKey i).objectid = objectid ∧ (node.itemKey i).type = 108 then
      if (node.itemKey i).offset ≤ offset then some i else findExtent objectid offset i
    else if (node.itemKey i).objectid < objectid then none
    else findExtent objectid offset i

end BtrfsNode

structure BtrfsSuper where
  root : ℕ
  nodesize : ℕ
  sysChunkArraySize : ℕ
  sysChunkArray : Sector

def btrfsPartitionStart : ℕ := 2048 + 64 * 1024 * 1024 / 512

/-- Six sectors are read; the chunk array and what follows it are `behind` it. -/
def btrfsInit (d : Disk) (behind : Sector) : Option BtrfsSuper :=
  let sb : Sector := fun i =>
    if i < 3072 then d (btrfsPartitionStart + 128 + i / 512) (i % 512) else behind i
  if le64 sb 64 = 0x4D5F53665248425F then some {
    root := le64 sb 80
    nodesize := le32 sb 148
    sysChunkArraySize := le32 sb 160
    sysChunkArray := fun i => sb (811 + i) }
  else none

namespace BtrfsSuper
variable (g : BtrfsSuper) (d : Disk) (behind : Sector)

def logicalToPhysicalFrom (logical ptr : ℕ) : ℕ :=
  if h : ptr < g.sysChunkArraySize then
    if (btrfsKeyAt g.sysChunkArray ptr).type = 228 then
      let start := (btrfsKeyAt g.sysChunkArray ptr).offset
      if start ≤ logical ∧ logical < (start + le64 g.sysChunkArray (ptr + 17)) % 2 ^ 64 then
        (le64 g.sysChunkArray (ptr + 61 + 8) + (logical - start)) % 2 ^ 64
      else logicalToPhysicalFrom logical (ptr + 61 + le16 g.sysChunkArray (ptr + 17 + 40) * 32)
    else logicalToPhysicalFrom logical (ptr + 1)
  else logical
termination_by g.sysChunkArraySize - ptr

def logicalToPhysical (logical : ℕ) : ℕ := g.logicalToPhysicalFrom logical 0

def nodeSectors : ℕ := (if g.nodesize = 0 then 16384 else g.nodesize) / 512

def lbaOf (logical : ℕ) : ℕ :=
  (btrfsPartitionStart + g.logicalToPhysical logical / 512 % 2 ^ 32) % 2 ^ 32

/-- The buffer after the sectors of the node have been read. -/
def nodeAt (logical : ℕ) : BtrfsNode := fun i =>
  if i < g.nodeSectors * 512 then d ((g.lbaOf logical + i / 512) % 2 ^ 32) (i % 512) else behind i

def readNode (logical : ℕ) : Counted BtrfsNode := do
  tick g.nodeSectors
  pure (g.nodeAt d behind logical)

variable (fuel : ℕ)

def descend (root : ℕ) (key : BtrfsKey) : Counted BtrfsNode :=
  loop (fun logical => do
    let node ← g.readNode d behind logical
    if 0 < node.level then pure (.inr (node.child key)) else pure (.inl node)) fuel root

def treeSearch (root : ℕ) (key : BtrfsKey) : Counted (Option (BtrfsNode × ℕ)) := do
  let node ← g.descend d behind fuel root key
  pure ((node.findItem key node.itemCount 0).map fun i => (node, i))

def getFsRoot : Counted ℕ := do
  match ← g.treeSearch d behind fuel g.root ⟨5, 132, 0⟩ with
  | some (node, i) => pure (le64 node (node.itemData i + 16))
  | none => pure 0

def resolveParts (fsRoot : ℕ) : ℕ → List Bytes → Counted ℕ
  | objectid, [] => pure objectid
  | objectid, part :: rest => do
    let node ← g.descend d behind fuel fsRoot ⟨objectid, 96, 0⟩
    match node.findName objectid part node.nritems 0 with
    | none => pure 0
    | some objectid' => resolveParts fsRoot objectid' rest

def pathParts (path : Bytes) : List Bytes := (path.splitOnP (· == slash)).filter (· ≠ [])

def resolvePath (path : Bytes) : Counted ℕ :=
  if path.head? ≠ some slash then pure 0
  else if path = [slash] then pure 256
  else do
    let fsRoot ← g.getFsRoot d behind fuel
    if fsRoot = 0 then pure 0
    else g.resolveParts d behind fuel fsRoot 256 (pathParts path)

/-- The bytes that one round of a read adds, if it goes on, and its last bytes otherwise. -/
def readExtent (stack : Sector) (node : BtrfsNode) (i : ℕ) (cur room : ℕ) :
    Counted (Bytes ⊕ Bytes) :=
  let ed := node.itemData i
  let extentOffset := cur - (node.itemKey i).offset
  let numBytes := le64 node (ed + 21 + 24)
  let count := min ((numBytes + 2 ^ 64 - extentOffset) % 2 ^ 64) room
  if node (ed + 20) = 0 then
    let inlineSize := (node.itemSize i + 2 ^ 32 - 21) % 2 ^ 32
    if inlineSize ≤ extentOffset then pure (.inl [])
    else pure (.inl ((List.range (min (inlineSize - extentOffset) room)).map fun j =>
      node (ed + 21 + extentOffset + j)))
  else if node (ed + 20) = 1 then
    if le64 node (ed + 21) = 0 then pure (.inr (List.replicate count 0))
    else do
      let phys := g.logicalToPhysical
        ((le64 node (ed + 21) + le64 node (ed + 21 + 16) + extentOffset) % 2 ^ 64)
      let lba := (btrfsPartitionStart + phys / 512 % 2 ^ 32) % 2 ^ 32
      let sectors := min ((count + 511) / 512) 32
      tick sectors
      pure (.inr ((List.range count).map fun j =>
        if j < sectors * 512 then d ((lba + j / 512) % 2 ^ 32) (j % 512) else stack j))
  else pure (.inl [])

/-- A round of the loop over the extents of a file; the state is what has been copied. -/
def readStep (stack : Sector) (fsRoot objectid offset size : ℕ) (out : Bytes) :
    Counted (Bytes ⊕ Bytes) :=
  if size ≤ out.length then pure (.inl out)
  else do
    let cur := (offset + out.length) % 2 ^ 64
    let node ← g.descend d behind fuel fsRoot ⟨objectid, 108, cur⟩
    match node.findExtent objectid cur node.itemCount with
    | none => pure (.inl out)
    | some i =>
      match ← g.readExtent d stack node i cur (size - out.length) with
      | .inl more => pure (.inl (out ++ more))
      | .inr more => pure (.inr (out ++ more))

def beRead (stack : Sector) (path : Bytes) (offset size : ℕ) : Counted (ℤ × Bytes) := do
  let objectid ← g.resolvePath d behind fuel path
  if objectid = 0 then pure (vfsENOENT, [])
  else
    let fsRoot ← g.getFsRoot d behind fuel
    if fsRoot = 0 then pure (vfsEio, [])
    else
      let out ← loop (g.readStep d behind fuel stack fsRoot objectid offset size) fuel []
      pure (toCInt out.length, out)

end BtrfsSuper
end SageOS
