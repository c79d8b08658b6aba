import SageOS.BtrfsReturns

/-!
# File system requests on arbitrary disks

Neither driver checks that the chains and trees of a disk come to an end. The theorem says for every
disk that is accepted which requests return, with a number of sector reads that depends only on the
size of the request. On a disk whose root directory is a cluster that follows itself and whose
entries are all deleted no lookup ever returns.
-/
namespace SageOS
open Counted LinkedChain List
open Fat32Scan in
theorem accepted_disk_returns_iff (d : Disk) : (∀ m, fat32Init d = some m →
      ((∀ path : Bytes, 0 ∉ path →
          Returns (fun n => fat32Stat m d n path) (readBound path.length)) ↔ DirsBounded m d) ∧
      ((∀ (path : Bytes) (maxEntries : ℕ), 0 ∉ path →
          Returns (fun n => fat32Readdir m d n path maxEntries)
            (readBound (path.length + maxEntries))) ↔
        DirsBounded m d ∧ ∀ c, Listed m d c → Lists m d c) ∧
      ((∀ (path : Bytes) (offset size : ℕ), 0 ∉ path →
          Returns (fun n => fat32Read m d n path offset size)
            (readBound (path.length + offset + size))) ↔ DirsBounded m d) ∧
      (DirsBounded m d → ∀ (path : Bytes) (offset : ℕ) (data : Bytes), 0 ∉ path →
        (∀ s, LeadsTo m d path s → (entryAt d s).isDirectory = true ∨
          (offset + data.length) % 2 ^ 64 ≤ (entryAt d s).fileSize ∨
          StaysInside m d s ((offset + data.length) % 2 ^ 64)) →
        Returns (fun n => fat32Write m d n path offset data)
          (readBound (path.length + offset + data.length)))) ∧
    (∀ behind g, btrfsInit d behind = some g →
      (∀ root key, Returns (fun n => g.treeSearch d behind n root key) (readBound 0) ↔
        ∃ node, g.Leaf d behind key root node) ∧
      ((∀ path : Bytes, 0 ∉ path →
          Returns (fun n => g.resolvePath d behind n path) (readBound path.length)) ↔
        g.TreesEnd d behind) ∧
      ∀ stack, (∀ (path : Bytes) (offset size : ℕ), 0 ∉ path → offset < 2 ^ 64 →
          Returns (fun n => g.beRead d behind n stack path offset size)
            (readBound (path.length + offset + size))) ↔
        g.TreesEnd d behind ∧ g.FilesEnd d behind) := by
  constructor
  · intro m hinit
    exact ⟨stat_returns_iff hinit, readdir_returns_iff hinit, read_returns_iff hinit,
      fun h path offset data hpath hends => write_returns hinit h path offset data hpath hends⟩
  · intro behind g hinit
    exact ⟨g.treeSearch_returns_iff hinit, g.resolvePath_returns_iff hinit,
      g.beRead_returns_iff hinit⟩

/-- The boot sector of a volume with one sector for the table and one sector a cluster. -/
def tinyBoot : Sector := fun i =>
  if i = 12 ∨ i = 44 then 2
  else if i = 13 ∨ i = 14 ∨ i = 16 ∨ i = 36 then 1
  else if i = 510 then 0x55
  else if i = 511 then 0xAA
  else 0

/-- The root directory in cluster 2 follows itself; its sector is filled with one byte. Further on
there is a superblock with nodes of less than a sector. -/
def tinyDisk (fill : UInt8) : Disk := fun lba i =>
  if lba = 2048 then tinyBoot i
  else if lba = 2049 then if i = 8 then 2 else 0
  else if lba = 2050 then fill
  else if lba = btrfsPartitionStart + 128 then
    if i = 148 then 1 else if 64 ≤ i then (bytes "_BHRfS_M").getD (i - 64) 0 else 0
  else 0

def tinyMount : Fat32Mount where
  partitionLba := 2048
  rootCluster := 2
  sectorsPerCluster := 1
  reservedSectors := 1
  fatCount := 1
  fatSize := 1
  totalSectors := 0

theorem fat32Init_tinyDisk (fill : UInt8) : fat32Init (tinyDisk fill) = some tinyMount := by
  have hzero : tinyDisk fill 0 510 = 0 := rfl
  have hpart : fat32FindPartition (tinyDisk fill) = 2048 := if_pos (.inl (by rw [hzero]; decide))
  have hboot : tinyDisk fill 2048 = tinyBoot := rfl
  unfold fat32Init
  rw [hpart, hboot]
  rfl

theorem slots_tinyMount : tinyMount.slots 2 = Fat32Scan.sectorSlots 2050 := by decide

theorem iterate_tinyDisk (fill : UInt8) (k : ℕ) :
    (tinyMount.readFatEntry (tinyDisk fill))^[k] 2 = 2 := by
  have htable : tinyDisk fill (tinyMount.fatLba 2) = fun i => if i = 8 then 2 else 0 := rfl
  apply Function.iterate_fixed
  unfold Fat32Mount.readFatEntry
  rw [htable]
  decide

theorem entryAt_tinyDisk (fill : UInt8) {s : Slot} (hs : s ∈ tinyMount.slots 2) :
    entryAt (tinyDisk fill) s 0 = fill := by
  rw [slots_tinyMount] at hs
  obtain ⟨k, -, rfl⟩ := mem_map.mp hs
  rfl

/-- With an end mark in its first entry the directory can be searched, although its chain does not
end, and it has no entries. -/
theorem opened_tinyDisk {c : ℕ} (h : Fat32Scan.Opened tinyMount (tinyDisk 0) c) : c = 2 := by
  induction h with
  | root => rfl
  | sub _ hs _ _ ih =>
    subst ih
    obtain ⟨-, n, hn⟩ := hs
    obtain ⟨w, hw, hfound⟩ := Fat32Scan.yields_find.mp hn
    cases n with
    | zero => cases hw
    | succ n =>
      cases hw
      cases hfound

theorem tinyDisk_returns : (fat32Init (tinyDisk 0) = some tinyMount ∧
      (∀ path : Bytes, 0 ∉ path → Returns
        (fun n => Fat32Scan.fat32Stat tinyMount (tinyDisk 0) n path) (readBound path.length)) ∧
      ∀ (path : Bytes) (offset size : ℕ), 0 ∉ path → Returns
        (fun n => Fat32Scan.fat32Read tinyMount (tinyDisk 0) n path offset size)
        (readBound (path.length + offset + size))) ∧
    ∃ g, btrfsInit (tinyDisk 0) (fun _ => 0) = some g ∧ ∀ root key,
      Returns (fun n => g.treeSearch (tinyDisk 0) (fun _ => 0) n root key) (readBound 0) := by
  have hbounded : Fat32Scan.DirsBounded tinyMount (tinyDisk 0) := by
    intro c hc
    obtain rfl := opened_tinyDisk hc
    have hslot : (⟨2050, 0⟩ : Slot) ∈ tinyMount.slots 2 := by
      decide
    exact ⟨0, .inr ⟨⟨2050, 0⟩, hslot, entryAt_tinyDisk 0 hslot⟩⟩
  obtain ⟨hfat, hbtrfs⟩ := accepted_disk_returns_iff (tinyDisk 0)
  obtain ⟨hstat, -, hread, -⟩ := hfat tinyMount (fat32Init_tinyDisk 0)
  obtain ⟨g, hinit, hsize⟩ : ∃ g, btrfsInit (tinyDisk 0) (fun _ => 0) = some g ∧
      g.nodesize = 1 := by
    unfold btrfsInit
    exact ⟨_, if_pos (by decide), by decide⟩
  refine ⟨⟨fat32Init_tinyDisk 0, hstat.mpr hbounded, hread.mpr hbounded⟩, g, hinit,
    fun root key => ((hbtrfs _ _ hinit).1 root key).mpr ⟨_, .leaf ?_⟩⟩
  unfold BtrfsSuper.nodeAt BtrfsSuper.nodeSectors
  rw [hsize]
  rfl

theorem foldlM_findStep_deleted {d : Disk} {l : List Slot} {name : Bytes}
    (h : ∀ s ∈ l, entryAt d s 0 = 0xE5) (ln : LongName) :
    ∃ ln', l.foldlM (findStep d name) ln = .ok ln' := by
  induction l generalizing ln with
  | nil => exact ⟨ln, rfl⟩
  | cons s l ih =>
    have hstep : findStep d name ln s = .ok { ln with active := false } := by
      unfold findStep
      rw [h s mem_cons_self, if_neg (by decide), if_pos rfl]
    rw [foldlM_cons, hstep]
    exact ih (fun t ht => h t (mem_cons_of_mem s ht)) _

theorem searchDir_tinyDisk (n : ℕ) (name : Bytes) :
    Fat32Scan.searchDir tinyMount (tinyDisk 0xE5) n 2 name = none := by
  refine walk_eq_none (tinyMount.readFatEntry (tinyDisk 0xE5)) (fun _ _ => rfl) (fun k => ?_) _
  rw [iterate_tinyDisk]
  exact ⟨by decide, foldlM_findStep_deleted fun s hs => entryAt_tinyDisk 0xE5 hs⟩

/-- All entries are deleted, so the search goes on from the directory to itself. -/
theorem stat_never_returns : ∃ m, fat32Init (tinyDisk 0xE5) = some m ∧ ∀ n r,
      ¬ (Fat32Scan.fat32Stat m (tinyDisk 0xE5) n (bytes "/a")).Yields r := by
  refine ⟨tinyMount, fat32Init_tinyDisk 0xE5, fun n r hr => ?_⟩
  unfold Fat32Scan.fat32Stat at hr
  rw [if_neg (by decide), if_neg (by decide), yields_bind] at hr
  obtain ⟨s, hs, -⟩ := hr
  have hsplit : (bytes "/a").splitOnP (· == slash) = [[], [97]] := by decide
  unfold Fat32Scan.findRootEntry at hs
  rw [hsplit, Fat32Scan.resolve, if_pos rfl, Fat32Scan.resolve, if_neg (by decide),
    yields_bind] at hs
  obtain ⟨t, ht, -⟩ := hs
  obtain ⟨w, hw, -⟩ := Fat32Scan.yields_find.mp ht
  rw [show tinyMount.rootCluster = 2 from rfl, searchDir_tinyDisk] at hw
  cases hw

end SageOS
