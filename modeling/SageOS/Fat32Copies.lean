import SageOS.Fat32Slice
import SageOS.GuardedRun

/-!
# Copies of the allocation table and the free count

The driver writes the first copy of the allocation table only and never the sector with the number
of free clusters. A write that takes no new cluster changes nothing before the data area, so it
keeps both; a write that takes one leaves the other copies and the reported free space behind.
-/
namespace SageOS.Fat32Mount
open LinkedChain GuardedRun List Option Finset
variable (m : Fat32Mount)

/-- The result, the size and the free space in units of 1024 bytes. -/
def fat32StorageInfo (fsInfo : ℕ) (d : Disk) : ℕ × ℕ × ℕ :=
  if m.available = false then (0, 0, 0)
  else
    let totalKb := m.totalSectors * 512 / 1024 % 2 ^ 32
    let info := d ((m.partitionLba + fsInfo) % 2 ^ 32)
    if fsInfo = 0 then (0, totalKb, 0)
    else if le32 info 0 ≠ 0x41615252 ∨ le32 info 484 ≠ 0x61417272 ∨ le32 info 488 = 0xFFFFFFFF then
      (0, totalKb, 0)
    else (1, totalKb, le32 info 488 * m.sectorsPerCluster * 512 / 1024 % 2 ^ 32)

def CopiesEqual (d : Disk) : Prop :=
  ∀ k < m.fatCount, ∀ i < m.fatSize, ∀ j < 512,
    d (m.fatStart + k * m.fatSize + i) j = d (m.fatStart + i) j

def ReportsFree (fsInfo : ℕ) (d : Disk) : Prop :=
  ∃ totalKb, m.fat32StorageInfo fsInfo d =
    (1, totalKb, (m.freeClusters d).card * m.clusterBytes / 1024)

/-- The sector with the free count is a reserved one and counts the free clusters. -/
structure Consistent (fsInfo : ℕ) (d : Disk) : Prop where
  copies : m.CopiesEqual d
  pos : 0 < fsInfo
  reserved : fsInfo < m.reservedSectors
  lead : le32 (d (m.partitionLba + fsInfo)) 0 = 0x41615252
  struc : le32 (d (m.partitionLba + fsInfo)) 484 = 0x61417272
  count : le32 (d (m.partitionLba + fsInfo)) 488 = (m.freeClusters d).card

structure WriteRequest where
  path : Bytes
  offset : ℕ
  data : Bytes

def writeStep (d : Disk) (r : WriteRequest) : Disk :=
  ((m.fat32Write r.path r.offset r.data d).map (·.2)).getD d

/-- The file that is written has clusters for everything up to the end of the write. -/
structure NoNewCluster (d : Disk) (r : WriteRequest) : Prop where
  chains : m.ChainsOk d
  covered : ∀ s, m.findRootEntry d r.path = some (some s) → (entryAt d s).isDirectory = false →
    (entryAt d s).firstCluster ≠ 0 ∧ ∀ l, m.ClusterChain d (entryAt d s).firstCluster l →
      (r.offset + r.data.length) % 2 ^ 64 ≤ l.length * m.clusterBytes

variable {m} {d d' : Disk} {c fsInfo : ℕ} {l : List ℕ} {s : Slot}

theorem expand_of_covers (hg : m.Geometry) {n writeEnd : ℕ} (hl : m.ClusterChain d c (c :: l))
    (hn : writeEnd < n) (hend : writeEnd ≤ (l.length + 1) * m.clusterBytes) :
    m.expand n c writeEnd d = some (true, d) := by
  have hpos := hg.clusterBytes_pos
  induction l generalizing c n writeEnd with
  | nil =>
    obtain ⟨n, rfl⟩ : ∃ k, n = k + 1 := ⟨n - 1, by omega⟩
    rw [length_nil, Nat.zero_add, Nat.one_mul] at hend
    exact if_pos hend
  | cons a l ih =>
    obtain ⟨n, rfl⟩ : ∃ k, n = k + 1 := ⟨n - 1, by omega⟩
    rw [expand]
    by_cases hshort : writeEnd ≤ m.clusterBytes
    · exact if_pos hshort
    obtain ⟨-, -, hnext⟩ := hl
    obtain ⟨rfl, hstop, -⟩ := id hnext
    rw [if_neg hshort, if_neg hstop]
    refine ih hnext (by omega) ?_
    rw [length_cons, Nat.add_mul, Nat.one_mul] at hend
    omega

theorem updateDirectoryEntry_frame (hg : m.Geometry) (hl : m.ClusterChain d m.rootCluster l)
    (hvol : ∀ a ∈ l, m.OnVolume a) {name : Bytes} {e : DirEntry}
    (h : m.updateDirectoryEntry d m.rootCluster name e = some d') {lba : ℕ}
    (hlba : lba < m.dataStart) : d' lba = d lba := by
  unfold updateDirectoryEntry at h
  rw [updateTarget_chain hl (length_lt_maxChain hg hl hvol), map_some] at h
  cases hfind : (m.dirSlots l).find? (ShortNameIs d name ·) with
  | none =>
    rw [hfind] at h
    cases h
    rfl
  | some s =>
    rw [hfind] at h
    cases h
    have hmem := (mem_dirSlots.mp (mem_of_find?_eq_some hfind)).1
    have hge := dataStart_le_of_mem_sectors hg hvol hmem
    exact setEntry_of_ne (by omega) e d

theorem writeStep_frame (hg : m.Geometry) {r : WriteRequest} (h : m.NoNewCluster d r) {lba : ℕ}
    (hlba : lba < m.dataStart) : m.writeStep d r lba = d lba := by
  unfold writeStep fat32Write
  by_cases havail : m.available = false
  · rw [if_pos havail]
    rfl
  rw [if_neg havail]
  rcases hfind : m.findRootEntry d r.path with _ | _ | s
  · rfl
  · rfl
  rw [bind_some]
  dsimp only
  by_cases hdir : (entryAt d s).isDirectory = true
  · rw [if_pos hdir]
    rfl
  rw [if_neg hdir]
  have hfile : (entryAt d s).isDirectory = false := by simpa using hdir
  obtain ⟨hfirst, hcovers⟩ := h.covered s hfind hfile
  obtain ⟨l, hl, hne, hvol⟩ := h.chains.chain (.file s)
    ⟨fileSlot_of_find hg h.chains hfind hfile, hfirst⟩
  obtain ⟨root, hroot, -, hrootVol⟩ := h.chains.chain (.dir _) .root
  obtain ⟨a, l, rfl⟩ := exists_cons_of_ne_nil hne
  have hlong := hcovers _ hl
  change m.ClusterChain d (entryAt d s).firstCluster _ at hl
  obtain rfl : a = (entryAt d s).firstCluster := hl.1
  rw [expand_of_covers hg hl (Nat.lt_succ_self _) hlong, bind_some]
  dsimp only
  rw [writeClusters_run hg hl hvol, bind_some]
  generalize hst : (m.sectors _).foldl writeSector _ = st
  have hsame : ∀ lba < m.dataStart, st.disk lba = d lba := by
    intro lba hlt
    rw [← hst, foldl_writeSector_of_notMem _ fun hmem => ?_]
    have hge := dataStart_le_of_mem_sectors hg hvol hmem
    omega
  by_cases hsize : (entryAt d s).fileSize < (r.offset + r.data.length) % 2 ^ 64
  · rw [if_pos hsize]
    have hroot' : m.ClusterChain st.disk m.rootCluster root := Chain.congr hroot fun a ha =>
      readFatEntry_congr hg (fun lba _ hlt => hsame lba hlt) ((hrootVol a ha).lt_fat hg)
    cases hupdate : m.updateDirectoryEntry st.disk m.rootCluster r.path _ with
    | none => rfl
    | some d₂ =>
      exact (updateDirectoryEntry_frame hg hroot' hrootVol hupdate hlba).trans (hsame lba hlba)
  · rw [if_neg hsize]
    exact hsame lba hlba

theorem Consistent.congr (hg : m.Geometry) (h : m.Consistent fsInfo d)
    (hsame : ∀ lba < m.dataStart, d' lba = d lba) : m.Consistent fsInfo d' := by
  have hinfo : d' (m.partitionLba + fsInfo) = d (m.partitionLba + fsInfo) := by
    have hlt := h.reserved
    refine hsame _ ?_
    unfold dataStart fatStart
    omega
  have hcopy : ∀ k < m.fatCount, ∀ i < m.fatSize,
      d' (m.fatStart + k * m.fatSize + i) = d (m.fatStart + k * m.fatSize + i) := by
    intro k hk i hi
    have hle := Nat.mul_le_mul_right m.fatSize (Nat.succ_le_of_lt hk)
    rw [Nat.succ_mul] at hle
    refine hsame _ ?_
    unfold dataStart
    omega
  have hfree : m.freeClusters d' = m.freeClusters d := by
    refine filter_congr fun c hc => ?_
    rw [mem_Ico] at hc
    have hcovers := hg.covers
    rw [readFatEntry_congr hg (fun lba _ hlt => hsame lba hlt) (by omega)]
  refine ⟨fun k hk i hi j hj => ?_, h.pos, h.reserved, ?_, ?_, ?_⟩
  · have hzero := hcopy 0 hg.fatCount_pos i hi
    rw [Nat.zero_mul, Nat.add_zero] at hzero
    rw [hcopy k hk i hi, hzero, h.copies k hk i hi j hj]
  · rw [hinfo, h.lead]
  · rw [hinfo, h.struc]
  · rw [hinfo, hfree, h.count]

theorem Consistent.reportsFree (hg : m.Geometry) (havail : m.available = true)
    (h : m.Consistent fsInfo d) : m.ReportsFree fsInfo d := by
  have hend := hg.dataEnd_le
  have hle := hg.clusters_le
  have hcard : (m.freeClusters d).card ≤ m.clusterCount := by
    have := card_filter_le (Finset.Ico 2 (m.clusterCount + 2)) fun c => m.readFatEntry d c = 0
    rwa [Nat.card_Ico, Nat.add_sub_cancel] at this
  have hmul := Nat.mul_le_mul_right m.sectorsPerCluster hcard
  have hlba : (m.partitionLba + fsInfo) % 2 ^ 32 = m.partitionLba + fsInfo := by
    have hlt := h.reserved
    unfold dataStart fatStart at hend
    rw [Nat.mod_eq_of_lt (by omega)]
  have hmod : (m.freeClusters d).card * m.sectorsPerCluster * 512 / 1024 % 2 ^ 32 =
      (m.freeClusters d).card * m.clusterBytes / 1024 := by
    rw [Nat.mod_eq_of_lt (by omega), clusterBytes, Nat.mul_assoc]
  refine ⟨m.totalSectors * 512 / 1024 % 2 ^ 32, ?_⟩
  unfold fat32StorageInfo
  rw [if_neg (by simp [havail])]
  rw [hlba, if_neg h.pos.ne', if_neg (by rw [h.lead, h.struc, h.count]; omega), h.count, hmod]

/-- In every run of writes that take no new cluster. -/
theorem writes_keep_copies (m : Fat32Mount) (fsInfo : ℕ) (d : Disk) (hg : m.Geometry)
    (havail : m.available = true) (hd : m.Consistent fsInfo d) (rs : List WriteRequest)
    (hrs : Guarded m.writeStep m.NoNewCluster d rs) :
    m.CopiesEqual (run m.writeStep d rs) ∧ m.ReportsFree fsInfo (run m.writeStep d rs) := by
  have hend : m.Consistent fsInfo (run m.writeStep d rs) :=
    invariant_run (fun d r hd hr => hd.congr hg fun _ hlt => writeStep_frame hg hr hlt) hd hrs
  exact ⟨hend.copies, hend.reportsFree hg havail⟩

/-- Two copies of the table, in sectors 2 and 3, and the free count in sector 1. -/
def twoCopies : Fat32Mount where
  partitionLba := 0
  rootCluster := 2
  sectorsPerCluster := 2
  reservedSectors := 2
  fatCount := 2
  fatSize := 1
  totalSectors := 204

/-- A file of one byte in cluster 3; 98 clusters are free. -/
def twoCopiesDisk : Disk := fun lba i =>
  if lba = 1 then
    put32 (put32 (put32 (fun _ => 0) 0 0x41615252) 484 0x61417272) 488 98 i
  else if lba = 2 ∨ lba = 3 then
    ([0x0FFFFFF8, 0x0FFFFFFF, 0x0FFFFFFF, 0x0FFFFFFF].getD (i / 4) 0 / 2 ^ (8 * (i % 4))).toUInt8
  else if lba = 4 then (fileEntry (bytes "A          ") 3 1).getD i 0
  else 0

theorem twoCopies_geometry : twoCopies.Geometry :=
  ⟨by decide, by decide, by decide, by decide, by decide, by decide⟩

theorem oneFile_twoCopiesDisk : twoCopies.OneFile twoCopiesDisk [2] ⟨4, 0⟩ [3] := by
  decide

theorem consistent_twoCopiesDisk : twoCopies.Consistent 1 twoCopiesDisk where
  copies := by
    intro k hk i hi j hj
    obtain rfl : i = 0 := by simpa [twoCopies] using hi
    have hk2 : k < 2 := hk
    rcases (by omega : k = 0 ∨ k = 1) with rfl | rfl <;> rfl
  pos := by decide
  reserved := by decide
  lead := by decide
  struc := by decide
  count := by decide

theorem overwrite_keeps_copies :
    twoCopies.CopiesEqual (run twoCopies.writeStep twoCopiesDisk [⟨bytes "a", 0, [7]⟩]) ∧
      twoCopies.ReportsFree 1 (run twoCopies.writeStep twoCopiesDisk [⟨bytes "a", 0, [7]⟩]) := by
  refine writes_keep_copies twoCopies 1 twoCopiesDisk twoCopies_geometry (by decide)
    consistent_twoCopiesDisk _ ⟨⟨oneFile_twoCopiesDisk.chainsOk, fun s hs _ => ?_⟩, trivial⟩
  obtain rfl : s = ⟨4, 0⟩ := by
    exact (some.inj (some.inj hs)).symm
  refine ⟨by decide, fun l hl => ?_⟩
  rw [Chain.unique hl (oneFile_twoCopiesDisk.2.2.resolve_left (by decide)).1]
  decide

/-- One byte behind the first cluster: the second copy has another entry for cluster 3, and of the
97 free clusters 98 are reported. -/
theorem growing_write_leaves_copy_behind :
    let d' := twoCopies.writeStep twoCopiesDisk ⟨bytes "a", 1024, [7]⟩
    twoCopies.Geometry ∧ twoCopies.ChainsOk twoCopiesDisk ∧ twoCopies.Consistent 1 twoCopiesDisk ∧
      (twoCopies.fat32Write (bytes "a") 1024 [7] twoCopiesDisk).map (·.1) = some 1 ∧
      ¬ twoCopies.CopiesEqual d' ∧ (twoCopies.freeClusters d').card = 97 ∧
      twoCopies.fat32StorageInfo 1 d' = (1, 102, 98) := by
  refine ⟨twoCopies_geometry, oneFile_twoCopiesDisk.chainsOk, consistent_twoCopiesDisk, by decide,
    fun h => ?_, by decide, by decide⟩
  have h12 := h 1 (by decide) 0 (by decide) 12 (by decide)
  exact absurd h12 (by decide)

end SageOS.Fat32Mount
