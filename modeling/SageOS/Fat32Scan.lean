import SageOS.Counted
import SageOS.Fat32Lookup

/-!
# FAT32 operations with their sector reads

The operations once more, now over an arbitrary amount of fuel for each loop and with a count of the
sectors that they read: one for every sector of a directory or a file that a loop comes to, and one
for every entry of the allocation table. A loop that is given enough fuel computes what the
operations over `walk` compute.
-/
namespace SageOS
open LinkedChain Counted

def le16 (s : Sector) (i : ℕ) : ℕ := (s i).toNat + 2 ^ 8 * (s (i + 1)).toNat

def fat32FindPartition (d : Disk) : ℕ :=
  if d 0 510 ≠ 0x55 ∨ d 0 511 ≠ 0xAA then 2048
  else
    match [446, 462, 478, 494].find? fun p => d 0 (p + 4) ∈ [(0x0B : UInt8), 0x0C, 0xEF] with
    | some p => le32 (d 0) (p + 8)
    | none => 2048

/-- What the boot sector at the start of the partition says, if it is accepted. -/
def fat32Init (d : Disk) : Option Fat32Mount :=
  let bpb := d (fat32FindPartition d)
  if le16 bpb 510 ≠ 0xAA55 then none
  else if le16 bpb 11 ≠ 512 ∨ bpb 16 = 0 ∨ le32 bpb 36 = 0 then none
  else some {
    partitionLba := fat32FindPartition d
    sectorsPerCluster := (bpb 13).toNat
    reservedSectors := le16 bpb 14
    fatCount := (bpb 16).toNat
    fatSize := le32 bpb 36
    rootCluster := le32 bpb 44
    totalSectors := le32 bpb 32 }

theorem of_fat32Init {d : Disk} {m : Fat32Mount} (h : fat32Init d = some m) :
    m.available = true ∧ m.sectorsPerCluster < 256 := by
  unfold fat32Init at h
  dsimp only at h
  split_ifs at h
  obtain rfl := Option.some.inj h
  exact ⟨rfl, UInt8.toNat_lt _⟩

namespace Fat32Scan
section
variable {β σ : Type}

/-- Sectors that are read one after the other until the loop over them is left. -/
def scan (f : σ → ℕ → Except β σ) : List ℕ → σ → Counted (Except β σ)
  | [], s => pure (.ok s)
  | lba :: l, s => do
    tick 1
    match f s lba with
    | .error b => pure (.error b)
    | .ok s' => scan f l s'

/-- A round of the loop over a chain; the next cluster is read from the table as the round has
left it. -/
def followStep (next : σ → ℕ → ℕ) (body : σ → ℕ → Counted (Except β σ)) (t : ℕ × σ) :
    Counted (Except β σ ⊕ ℕ × σ) :=
  if fat32IsEndOfChain t.1 then pure (.inl (.ok t.2))
  else do
    match ← body t.2 t.1 with
    | .error b => pure (.inl (.error b))
    | .ok s' =>
      tick 1
      pure (.inr (next s' t.1, s'))

def follow (next : σ → ℕ → ℕ) (body : σ → ℕ → Counted (Except β σ)) (fuel cluster : ℕ) (s : σ) :
    Counted (Except β σ) :=
  loop (followStep next body) fuel (cluster, s)

end

def sectorSlots (lba : ℕ) : List Slot := (List.range 16).map fun k => ⟨lba, 32 * k⟩

variable (m : Fat32Mount) (d : Disk) (fuel : ℕ)

def findEntryInCluster (cluster : ℕ) (name : Bytes) : Counted (Option Slot) := do
  match ← follow (fun _ => m.readFatEntry d)
      (fun ln c => scan (fun ln lba => (sectorSlots lba).foldlM (findStep d name) ln)
        (m.lbas c) ln) fuel cluster ({} : LongName) with
  | .error r => pure r
  | .ok _ => pure none

def resolve : ℕ → Option Slot → List Bytes → Counted (Option Slot)
  | _, found, [] => pure found
  | cluster, found, segment :: rest =>
    if segment = [] then resolve cluster found rest
    else do
      match ← findEntryInCluster m d fuel cluster (segment.take 255) with
      | none => pure none
      | some s =>
        if rest = [] then pure (some s)
        else if (entryAt d s).isDirectory = false then pure none
        else if (entryAt d s).firstCluster < 2 then pure none
        else resolve (entryAt d s).firstCluster (some s) rest

def findRootEntry (path : Bytes) : Counted (Option Slot) :=
  resolve m d fuel m.rootCluster none (path.splitOnP (· == slash))

def fat32Stat (path : Bytes) : Counted (Except ℤ VfsStat) :=
  if m.available = false then pure (.error vfsEio)
  else if path = [slash] then
    pure (.ok { name := strncpy 64 [slash], type := .directory, size := 0 })
  else do
    match ← findRootEntry m d fuel path with
    | none => pure (.error vfsENOENT)
    | some s => pure (.ok {
        name := Fat32Mount.entryToName (entryAt d s)
        type := if (entryAt d s).isDirectory then .directory else .file
        size := (entryAt d s).fileSize })

/-- The long-name entries of a listing; the end of a name that fills the buffer is not marked. -/
def lfnToName (ln : LongName) (e : DirEntry) : LongName :=
  let order := (e 0 &&& 0x1F).toNat
  if 0 < order ∧ order ≤ 20 then
    let base := (order - 1) * 13
    let buf := fun i => if base ≤ i ∧ i < base + 13 then e.longNameChars.getD (i - base) 0
      else ln.buf i
    { buf := if e 0 &&& 0x40 ≠ 0 ∧ order * 13 < 256 then Function.update buf (order * 13) 0 else buf
      active := true }
  else ln

structure Listing where
  ln : LongName := {}
  entries : List VfsDirEntry := []

def listStep (maxEntries : ℕ) (st : Listing) (s : Slot) : Except Listing Listing :=
  if maxEntries ≤ st.entries.length then .ok st
  else if entryAt d s 0 = 0 then .error st
  else if entryAt d s 0 = 0xE5 then .ok { st with ln := { st.ln with active := false } }
  else if (entryAt d s).attr = 0x0F then .ok { st with ln := lfnToName st.ln (entryAt d s) }
  else .ok {
    ln := st.ln.clear
    entries := st.entries ++ [{
      name := if st.ln.active then strncpy 64 st.ln.text
        else Fat32Mount.entryToName (entryAt d s)
      type := if (entryAt d s).isDirectory then .directory else .file
      size := (entryAt d s).fileSize }] }

def listClusters (cluster maxEntries : ℕ) : Counted (List VfsDirEntry) :=
  (fun r => (final r).entries) <$>
    follow (fun _ => m.readFatEntry d)
      (fun st c =>
        if maxEntries ≤ st.entries.length then pure (.error st)
        else scan (fun st lba => (sectorSlots lba).foldlM (listStep d maxEntries) st)
          (m.lbas c) st) fuel cluster ({} : Listing)

def vfsENOTDIR : ℤ := -20

def fat32Readdir (path : Bytes) (maxEntries : ℕ) : Counted (Except ℤ (List VfsDirEntry)) :=
  if m.available = false then pure (.error vfsEio)
  else if path = [slash] then .ok <$> listClusters m d fuel m.rootCluster maxEntries
  else do
    match ← findRootEntry m d fuel path with
    | none => pure (.error vfsENOENT)
    | some s =>
      if (entryAt d s).isDirectory = false then pure (.error vfsENOTDIR)
      else .ok <$> listClusters m d fuel (entryAt d s).firstCluster maxEntries

def skipStep (t : ℕ × ℕ) : Counted ((ℕ × ℕ) ⊕ (ℕ × ℕ)) :=
  if m.clusterBytes ≤ t.2 ∧ ¬ fat32IsEndOfChain t.1 then do
    tick 1
    pure (.inr (m.readFatEntry d t.1, t.2 - m.clusterBytes))
  else pure (.inl t)

def skipClusters (cluster skip : ℕ) : Counted (ℕ × ℕ) :=
  loop (skipStep m d) fuel (cluster, skip)

/-- The rounds of the inner loop of a read; sectors before the offset are not read. -/
def readSectors (size : ℕ) : List ℕ → ReadState → Counted ReadState
  | [], st => pure st
  | lba :: l, st => do
    tick (if size ≤ st.out.length ∨ 512 ≤ st.skip then 0 else 1)
    readSectors size l (readSector d size st lba)

def readClusters (size cluster skip : ℕ) : Counted Bytes :=
  (fun r => (final r).out) <$>
    follow (fun _ => m.readFatEntry d)
      (fun st c => if size ≤ st.out.length then pure (.error st)
        else .ok <$> readSectors d size (m.lbas c) st) fuel cluster (⟨skip, []⟩ : ReadState)

def fat32Read (path : Bytes) (offset size : ℕ) : Counted (ℤ × Bytes) :=
  if m.available = false then pure (vfsEio, [])
  else do
    match ← findRootEntry m d fuel path with
    | none => pure (vfsENOENT, [])
    | some s =>
      if (entryAt d s).isDirectory then pure (Fat32Mount.vfsEISDIR, [])
      else if (entryAt d s).fileSize ≤ offset then pure (0, [])
      else
        let start ← skipClusters m d fuel (entryAt d s).firstCluster offset
        let out ← readClusters m d fuel (min size ((entryAt d s).fileSize - offset)) start.1 start.2
        pure (toCInt out.length, out)

/-- A search that finds nothing reads every entry. -/
def findFreeCluster (d : Disk) : Counted (Option ℕ) := do
  tick (match m.findFreeCluster d with
    | some c => c - 1
    | none => m.fatEntries - 2)
  pure (m.findFreeCluster d)

def expandStep (t : ℕ × ℕ × Disk) : Counted ((Bool × Disk) ⊕ (ℕ × ℕ × Disk)) :=
  if t.2.1 ≤ m.clusterBytes then pure (.inl (true, t.2.2))
  else do
    tick 1
    if fat32IsEndOfChain (m.readFatEntry t.2.2 t.1) then
      match ← findFreeCluster m t.2.2 with
      | none => pure (.inl (false, t.2.2))
      | some new =>
        tick 2
        pure (.inr (new, t.2.1 - m.clusterBytes,
          m.writeFatEntry new 0x0FFFFFFF (m.writeFatEntry t.1 new t.2.2)))
    else pure (.inr (m.readFatEntry t.2.2 t.1, t.2.1 - m.clusterBytes, t.2.2))

def expand (current writeEnd : ℕ) : Counted (Bool × Disk) :=
  loop (expandStep m) fuel (current, writeEnd, d)

/-- The rounds of the inner loop of a write; a sector is read that is not replaced as a whole. -/
def writeSectors : List ℕ → WriteState → Counted WriteState
  | [], st => pure st
  | lba :: l, st => do
    tick (if st.rest ≠ [] ∧ st.skip < 512 ∧ (st.skip ≠ 0 ∨ st.rest.length < 512) then 1 else 0)
    writeSectors l (writeSector st lba)

def writeClusters (cluster offset : ℕ) (data : Bytes) : Counted WriteState :=
  final <$> follow (fun st => m.readFatEntry st.disk)
    (fun st c => if st.rest = [] then pure (.error st) else .ok <$> writeSectors (m.lbas c) st)
    fuel cluster (⟨d, offset, data⟩ : WriteState)

def updateDirectoryEntry (cluster : ℕ) (name : Bytes) (e : DirEntry) : Counted Disk := do
  match ← follow (fun _ => m.readFatEntry d)
      (fun _ c => scan (fun _ lba => (sectorSlots lba).foldlM
        (fun _ s => if ShortNameIs d name s then .error s else .ok ()) ()) (m.lbas c) ())
      fuel cluster () with
  | .error s => pure (setEntry s e d)
  | .ok _ => pure d

def fat32Write (path : Bytes) (offset : ℕ) (data : Bytes) : Counted (ℤ × Disk) :=
  if m.available = false then pure (vfsEio, d)
  else do
    match ← findRootEntry m d fuel path with
    | none => pure (vfsENOENT, d)
    | some s =>
      if (entryAt d s).isDirectory then pure (Fat32Mount.vfsEISDIR, d)
      else
        let writeEnd := (offset + data.length) % 2 ^ 64
        let (enough, d₁) ← expand m d fuel (entryAt d s).firstCluster writeEnd
        if enough then
          let st ← writeClusters m d₁ fuel (entryAt d s).firstCluster offset data
          let d₂ ← if (entryAt d s).fileSize < writeEnd then
              updateDirectoryEntry m st.disk fuel m.rootCluster path
                ((entryAt d s).withSize writeEnd)
            else pure st.disk
          pure (toCInt (data.length - st.rest.length), d₂)
        else pure (vfsENOSPC, d₁)

end Fat32Scan
end SageOS
