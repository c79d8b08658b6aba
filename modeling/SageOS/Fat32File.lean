import SageOS.Vfs
import SageOS.Fat32Volume
import SageOS.LinkedChain

/-!
# FAT32 directories and files

A directory is a chain of clusters with sixteen entries of 32 bytes in each sector. The lookup of a
name collects the long-name entries before an entry, stops at the end mark and passes over deleted
entries. The search for the entry to rewrite after a write looks at every entry of the root
directory and compares its short name with the whole path. Both loops leave early through the
error of `Except`; a loop that never ends has no result.

Reads and writes look up the path and walk over the clusters of the file, sector by sector, with a
number of bytes to skip first. A write first makes the chain long enough, takes the lowest free
entries of the allocation table for it, and rewrites the directory entry at the end when the file
has become longer.
-/
namespace SageOS
open LinkedChain

structure Slot where
  lba : ℕ
  offset : ℕ
  deriving DecidableEq

abbrev DirEntry := Fin 32 → UInt8

namespace DirEntry
variable (e : DirEntry)

def attr : UInt8 := e 11

def isDirectory : Bool := e.attr &&& 0x10 ≠ 0

def firstCluster : ℕ :=
  ((e 20).toNat + 2 ^ 8 * (e 21).toNat) * 2 ^ 16 + ((e 26).toNat + 2 ^ 8 * (e 27).toNat)

def fileSize : ℕ :=
  (e 28).toNat + 2 ^ 8 * (e 29).toNat + 2 ^ 16 * (e 30).toNat + 2 ^ 24 * (e 31).toNat

def withSize (n : ℕ) : DirEntry := fun i =>
  if i < 28 then e i else (n / 2 ^ (8 * (i.val - 28))).toUInt8

def shortName : Bytes :=
  [e 0, e 1, e 2, e 3, e 4, e 5, e 6, e 7].takeWhile (· ≠ 0x20) ++
    if e 8 ≠ 0x20 then 0x2E :: [e 8, e 9, e 10].takeWhile (· ≠ 0x20) else []

/-- The low bytes of the characters of a long-name entry. -/
def longNameChars : Bytes :=
  [e 1, e 3, e 5, e 7, e 9, e 14, e 16, e 18, e 20, e 22, e 24, e 28, e 30]

end DirEntry

def entryAt (d : Disk) (s : Slot) : DirEntry := fun i => d s.lba (s.offset + i)

def setEntry (s : Slot) (e : DirEntry) (d : Disk) : Disk :=
  Function.update d s.lba fun j =>
    if h : s.offset ≤ j ∧ j < s.offset + 32 then e ⟨j - s.offset, by omega⟩ else d s.lba j

def upper (c : UInt8) : UInt8 := if 97 ≤ c ∧ c ≤ 122 then c - 32 else c

def lower (c : UInt8) : UInt8 := if 65 ≤ c ∧ c ≤ 90 then c + 32 else c

def streq : Bytes → Bytes → Bool
  | [], [] => true
  | a :: s, b :: t => upper a = upper b ∧ streq s t
  | _, _ => false

/-- What a C string that starts with these bytes reads as. -/
def cstring (s : Bytes) : Bytes := s.takeWhile (· ≠ 0)

/-- The long-name buffer, zero before its first use. -/
structure LongName where
  buf : ℕ → UInt8 := fun _ => 0
  active : Bool := false

namespace LongName
variable (ln : LongName)

def store (e : DirEntry) : LongName :=
  let order := (e 0 &&& 0x1F).toNat
  if 0 < order ∧ order ≤ 20 then
    let base := (order - 1) * 13
    let buf := fun i =>
      if base ≤ i ∧ i < base + 13 then e.longNameChars.getD (i - base) 0 else ln.buf i
    { buf := if e 0 &&& 0x40 ≠ 0 then Function.update buf (min (order * 13) 255) 0 else buf
      active := true }
  else ln

def text : Bytes := ((List.range 255).map ln.buf).takeWhile fun c => c ≠ 0 ∧ c ≠ 0xFF

def entryName (e : DirEntry) : Bytes := if ln.active then ln.text else cstring e.shortName

def clear : LongName where
  buf := if ln.active then Function.update ln.buf ln.text.length 0 else ln.buf
  active := false

end LongName

def findStep (d : Disk) (name : Bytes) (ln : LongName) (s : Slot) :
    Except (Option Slot) LongName :=
  if entryAt d s 0 = 0 then .error none
  else if entryAt d s 0 = 0xE5 then .ok { ln with active := false }
  else if (entryAt d s).attr = 0x0F then .ok (ln.store (entryAt d s))
  else if streq (ln.entryName (entryAt d s)) name then .error (some s)
  else .ok ln.clear

/-- The short name of the entry, whatever kind of entry it is, is the given string. -/
def ShortNameIs (d : Disk) (name : Bytes) (s : Slot) : Prop :=
  (entryAt d s).shortName ≠ [] ∧ streq (cstring (entryAt d s).shortName) name

instance (d : Disk) (name : Bytes) : DecidablePred (ShortNameIs d name) :=
  fun _ => instDecidableAnd

namespace Fat32Mount
variable (m : Fat32Mount) (d : Disk)

def slots (cluster : ℕ) : List Slot :=
  (m.lbas cluster).flatMap fun lba => (List.range 16).map fun k => ⟨lba, 32 * k⟩

def findEntryInCluster (cluster : ℕ) (name : Bytes) : Option (Option Slot) :=
  (walk (fun _ => m.readFatEntry d) fat32IsEndOfChain
    (fun ln c => (m.slots c).foldlM (findStep d name) ln) maxChain cluster {}).map fun
    | .error r => r
    | .ok _ => none

/-- The parts of a path between its slashes; after every part but the last there is a slash. -/
def resolve : ℕ → Option Slot → List Bytes → Option (Option Slot)
  | _, found, [] => some found
  | cluster, found, segment :: rest =>
    if segment = [] then resolve cluster found rest
    else (m.findEntryInCluster d cluster (segment.take 255)).bind fun
      | none => some none
      | some s =>
        if rest = [] then some (some s)
        else if (entryAt d s).isDirectory = false then some none
        else if (entryAt d s).firstCluster < 2 then some none
        else resolve (entryAt d s).firstCluster (some s) rest

def findRootEntry (path : Bytes) : Option (Option Slot) :=
  m.resolve d m.rootCluster none (path.splitOnP (· == slash))

/-- The entry that is rewritten for a name. -/
def updateTarget (cluster : ℕ) (name : Bytes) : Option (Option Slot) :=
  (walk (fun _ => m.readFatEntry d) fat32IsEndOfChain
    (fun _ c => (m.slots c).foldlM
      (fun _ s => if ShortNameIs d name s then .error s else .ok ()) ())
    maxChain cluster ()).map fun
    | .error s => some s
    | .ok _ => none

def updateDirectoryEntry (cluster : ℕ) (name : Bytes) (e : DirEntry) : Option Disk :=
  (m.updateTarget d cluster name).map fun
    | some s => setEntry s e d
    | none => d

def vfsEISDIR : ℤ := -21

def entryToName (e : DirEntry) : CString 64 := strncpy 64 (e.shortName.map lower)

def fat32Stat (path : Bytes) : Option (Except ℤ VfsStat) :=
  if m.available = false then some (.error vfsEio)
  else if path = [slash] then
    some (.ok { name := strncpy 64 [slash], type := .directory, size := 0 })
  else (m.findRootEntry d path).map fun
    | none => .error vfsENOENT
    | some s => .ok {
        name := entryToName (entryAt d s)
        type := if (entryAt d s).isDirectory then .directory else .file
        size := (entryAt d s).fileSize }

end Fat32Mount

@[irreducible] def sectorBytes (s : Sector) : Bytes := (List.range 512).map s

structure ReadState where
  skip : ℕ
  out : Bytes

/-- One round of the inner loop of a read; nothing happens once everything is copied. -/
def readSector (d : Disk) (size : ℕ) (st : ReadState) (lba : ℕ) : ReadState :=
  if size ≤ st.out.length then st
  else if 512 ≤ st.skip then { st with skip := st.skip - 512 }
  else {
    skip := 0
    out := st.out ++ ((sectorBytes (d lba)).drop st.skip).take (size - st.out.length) }

structure WriteState where
  disk : Disk
  skip : ℕ
  rest : Bytes

/-- The bytes go over the sector from `off` on, as far as they reach in it. -/
def patchSector (s : Sector) (off : ℕ) (data : Bytes) : Sector := fun j =>
  if off ≤ j ∧ j < 512 ∧ j - off < data.length then data.getD (j - off) 0 else s j

/-- One round of the inner loop of a write; a sector that is replaced as a whole is not read. -/
def writeSector (st : WriteState) (lba : ℕ) : WriteState :=
  if st.rest = [] then st
  else if 512 ≤ st.skip then { st with skip := st.skip - 512 }
  else {
    disk := Function.update st.disk lba
      (patchSector (if st.skip ≠ 0 ∨ st.rest.length < 512 then st.disk lba else fun _ => 0)
        st.skip st.rest)
    skip := 0
    rest := st.rest.drop (512 - st.skip) }

namespace Fat32Mount
variable (m : Fat32Mount)

def skipClusters (d : Disk) : ℕ → ℕ → ℕ → Option (ℕ × ℕ)
  | 0, _, _ => none
  | n + 1, cluster, skip =>
    if m.clusterBytes ≤ skip ∧ ¬ fat32IsEndOfChain cluster then
      skipClusters d n (m.readFatEntry d cluster) (skip - m.clusterBytes)
    else some (cluster, skip)

def readClusters (d : Disk) (size cluster skip : ℕ) : Option Bytes :=
  (walk (fun _ => m.readFatEntry d) fat32IsEndOfChain
    (fun st c => if size ≤ st.out.length then .error st
      else .ok ((m.lbas c).foldl (readSector d size) st)) maxChain cluster
    (⟨skip, []⟩ : ReadState)).map fun r => (final r).out

/-- The result and the bytes that the buffer receives. -/
def fat32Read (d : Disk) (path : Bytes) (offset size : ℕ) : Option (ℤ × Bytes) :=
  if m.available = false then some (vfsEio, [])
  else (m.findRootEntry d path).bind fun
    | none => some (vfsENOENT, [])
    | some s =>
      if (entryAt d s).isDirectory then some (vfsEISDIR, [])
      else if (entryAt d s).fileSize ≤ offset then some (0, [])
      else
        (m.skipClusters d maxChain (entryAt d s).firstCluster offset).bind fun start =>
          (m.readClusters d (min size ((entryAt d s).fileSize - offset)) start.1 start.2).map
            fun out => (toCInt out.length, out)

/-- Makes the chain long enough for the end of the write; `false` when the table has no free
entry. -/
def expand : ℕ → ℕ → ℕ → Disk → Option (Bool × Disk)
  | 0, _, _, _ => none
  | n + 1, current, writeEnd, d =>
    if writeEnd ≤ m.clusterBytes then some (true, d)
    else if fat32IsEndOfChain (m.readFatEntry d current) then
      match m.findFreeCluster d with
      | none => some (false, d)
      | some new => expand n new (writeEnd - m.clusterBytes)
          (m.writeFatEntry new 0x0FFFFFFF (m.writeFatEntry current new d))
    else expand n (m.readFatEntry d current) (writeEnd - m.clusterBytes) d

/-- A round either skips or stores bytes or follows the chain, which bounds the rounds. -/
def writeClusters (cluster offset : ℕ) (data : Bytes) (d : Disk) : Option WriteState :=
  (walk (fun st => m.readFatEntry st.disk) fat32IsEndOfChain
    (fun st c => if st.rest = [] then .error st else .ok ((m.lbas c).foldl writeSector st))
    (maxChain + offset + data.length) cluster (⟨d, offset, data⟩ : WriteState)).map final

def fat32Write (path : Bytes) (offset : ℕ) (data : Bytes) (d : Disk) : Option (ℤ × Disk) :=
  if m.available = false then some (vfsEio, d)
  else (m.findRootEntry d path).bind fun
    | none => some (vfsENOENT, d)
    | some s =>
      if (entryAt d s).isDirectory then some (vfsEISDIR, d)
      else
        (m.expand ((offset + data.length) % 2 ^ 64 + 1) (entryAt d s).firstCluster
          ((offset + data.length) % 2 ^ 64) d).bind fun
          | (false, d₁) => some (vfsENOSPC, d₁)
          | (true, d₁) =>
            (m.writeClusters (entryAt d s).firstCluster offset data d₁).bind fun st =>
              (if (entryAt d s).fileSize < (offset + data.length) % 2 ^ 64 then
                m.updateDirectoryEntry st.disk m.rootCluster path
                  ((entryAt d s).withSize ((offset + data.length) % 2 ^ 64))
              else some st.disk).map fun d₂ => (toCInt (data.length - st.rest.length), d₂)

end Fat32Mount
end SageOS
