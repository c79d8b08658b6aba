import SageOS.CString

/-!
# FAT32 volumes

A mounted volume is the set of values that `fat32_init` takes from the boot sector, together with
a disk of sectors that the driver stores and returns faithfully. Sector numbers and cluster numbers
are 32-bit values, so that a cluster below 2 has a sector before the data area. Only the first copy
of the allocation table is read and written.
-/
namespace SageOS
open List Function

abbrev Sector := ℕ → UInt8

abbrev Disk := ℕ → Sector

def le32 (s : Sector) (i : ℕ) : ℕ :=
  (s i).toNat + 2 ^ 8 * (s (i + 1)).toNat + 2 ^ 16 * (s (i + 2)).toNat +
    2 ^ 24 * (s (i + 3)).toNat

def put32 (s : Sector) (i v : ℕ) : Sector := fun j =>
  if j = i then v.toUInt8
  else if j = i + 1 then (v / 2 ^ 8).toUInt8
  else if j = i + 2 then (v / 2 ^ 16).toUInt8
  else if j = i + 3 then (v / 2 ^ 24).toUInt8
  else s j

structure Fat32Mount where
  available : Bool := true
  partitionLba : ℕ
  rootCluster : ℕ
  sectorsPerCluster : ℕ
  reservedSectors : ℕ
  fatCount : ℕ
  fatSize : ℕ
  totalSectors : ℕ

def fat32IsEndOfChain (entry : ℕ) : Prop := 0x0FFFFFF8 ≤ entry

instance : DecidablePred fat32IsEndOfChain := fun _ => Nat.decLe _ _

/-- A loop over a chain that takes more steps than there are cluster numbers never ends. -/
def maxChain : ℕ := 2 ^ 28 + 1

namespace Fat32Mount
variable (m : Fat32Mount)

def fatStart : ℕ := m.partitionLba + m.reservedSectors

def dataStart : ℕ := m.fatStart + m.fatCount * m.fatSize

def clusterBytes : ℕ := m.sectorsPerCluster * 512

def clusterCount : ℕ :=
  (m.totalSectors - m.reservedSectors - m.fatCount * m.fatSize) / m.sectorsPerCluster

def clusterToLba (cluster : ℕ) : ℕ :=
  (m.dataStart + (cluster + (2 ^ 32 - 2)) * m.sectorsPerCluster) % 2 ^ 32

/-- The sectors of a cluster in the order of the loops over them. -/
def lbas (cluster : ℕ) : List ℕ :=
  (range m.sectorsPerCluster).map fun i => (m.clusterToLba cluster + i) % 2 ^ 32

def fatLba (cluster : ℕ) : ℕ := (m.fatStart + cluster * 4 % 2 ^ 32 / 512) % 2 ^ 32

def fatIndex (cluster : ℕ) : ℕ := cluster * 4 % 2 ^ 32 % 512

def readFatEntry (d : Disk) (cluster : ℕ) : ℕ :=
  le32 (d (m.fatLba cluster)) (fatIndex cluster) % 2 ^ 28

def writeFatEntry (cluster value : ℕ) (d : Disk) : Disk :=
  update d (m.fatLba cluster)
    (put32 (d (m.fatLba cluster)) (fatIndex cluster)
      (le32 (d (m.fatLba cluster)) (fatIndex cluster) / 2 ^ 28 * 2 ^ 28 + value % 2 ^ 28))

/-- The number of entries that the search for a free cluster goes through. -/
def fatEntries : ℕ := m.fatSize * 512 % 2 ^ 32 / 4

def findFreeCluster (d : Disk) : Option ℕ :=
  (List.range' 2 (m.fatEntries - 2)).find? fun cluster => m.readFatEntry d cluster = 0

def OnVolume (cluster : ℕ) : Prop := 2 ≤ cluster ∧ cluster < m.clusterCount + 2

/-- The table has an entry for every cluster, and the sectors have 32-bit numbers. -/
structure Geometry : Prop where
  spc_pos : 0 < m.sectorsPerCluster
  fatCount_pos : 0 < m.fatCount
  fatSize_lt : m.fatSize * 512 < 2 ^ 32
  covers : m.clusterCount + 2 ≤ m.fatSize * 128
  clusters_le : m.clusterCount + 2 ≤ 0x0FFFFFF7
  dataEnd_le : m.dataStart + m.clusterCount * m.sectorsPerCluster ≤ 2 ^ 32

end Fat32Mount

theorem toNat_toUInt8 (n : ℕ) : n.toUInt8.toNat = n % 2 ^ 8 := rfl

theorem le32_lt (s : Sector) (i : ℕ) : le32 s i < 2 ^ 32 := by
  have h0 := (s i).toNat_lt
  have h1 := (s (i + 1)).toNat_lt
  have h2 := (s (i + 2)).toNat_lt
  have h3 := (s (i + 3)).toNat_lt
  unfold le32
  omega

theorem le32_put32 (s : Sector) (i : ℕ) {v : ℕ} (hv : v < 2 ^ 32) : le32 (put32 s i v) i = v := by
  unfold le32 put32
  simp only [toNat_toUInt8, if_true, Nat.add_eq_left, Nat.add_left_cancel_iff, OfNat.ofNat_ne_zero,
    one_ne_zero, if_false, OfNat.ofNat_ne_one, Nat.reduceEqDiff]
  omega

theorem put32_of_ne (s : Sector) {i j : ℕ} (v : ℕ) (h : j < i ∨ i + 3 < j) :
    put32 s i v j = s j := by
  unfold put32
  rw [if_neg (by omega), if_neg (by omega), if_neg (by omega), if_neg (by omega)]

theorem le32_put32_of_ne (s : Sector) {i j : ℕ} (v : ℕ) (h : j + 3 < i ∨ i + 3 < j) :
    le32 (put32 s i v) j = le32 s j := by
  unfold le32
  rw [put32_of_ne s v (by omega), put32_of_ne s v (by omega), put32_of_ne s v (by omega),
    put32_of_ne s v (by omega)]

namespace Fat32Mount
variable {m : Fat32Mount}
variable {c : ℕ}

theorem fatLba_eq (hg : m.Geometry) (hc : c < m.fatSize * 128) :
    m.fatLba c = m.fatStart + c / 128 := by
  have hsize := hg.fatSize_lt
  have hend := hg.dataEnd_le
  have hcount : m.fatSize ≤ m.fatCount * m.fatSize := Nat.le_mul_of_pos_left _ hg.fatCount_pos
  unfold dataStart at hend
  unfold fatLba
  omega

theorem fatIndex_eq (c : ℕ) : fatIndex c = c % 128 * 4 := by
  unfold fatIndex
  omega

section
variable (hg : m.Geometry)

include hg

theorem fatLba_lt_dataStart (hc : c < m.fatSize * 128) :
    m.fatStart ≤ m.fatLba c ∧ m.fatLba c < m.dataStart := by
  have hcount : m.fatSize ≤ m.fatCount * m.fatSize := Nat.le_mul_of_pos_left _ hg.fatCount_pos
  rw [fatLba_eq hg hc]
  unfold dataStart
  omega

theorem fatEntries_eq : m.fatEntries = m.fatSize * 128 := by
  have hsize := hg.fatSize_lt
  unfold fatEntries
  omega

theorem readFatEntry_congr {d d' : Disk}
    (h : ∀ lba, m.fatStart ≤ lba → lba < m.dataStart → d' lba = d lba)
    (hc : c < m.fatSize * 128) : m.readFatEntry d' c = m.readFatEntry d c := by
  obtain ⟨hlo, hhi⟩ := fatLba_lt_dataStart hg hc
  unfold readFatEntry
  rw [h _ hlo hhi]

theorem readFatEntry_writeFatEntry (d : Disk) {c c' : ℕ} (value : ℕ)
    (hc : c < m.fatSize * 128) (hc' : c' < m.fatSize * 128) :
    m.readFatEntry (m.writeFatEntry c value d) c' =
      if c' = c then value % 2 ^ 28 else m.readFatEntry d c' := by
  unfold readFatEntry writeFatEntry
  have hold := le32_lt (d (m.fatLba c)) (fatIndex c)
  by_cases hsector : m.fatLba c' = m.fatLba c
  · rw [hsector, update_self]
    rw [fatLba_eq hg hc, fatLba_eq hg hc'] at hsector
    by_cases heq : c' = c
    · rw [if_pos heq, heq, le32_put32 _ _ (by omega)]
      omega
    · rw [if_neg heq, le32_put32_of_ne]
      rw [fatIndex_eq, fatIndex_eq]
      omega
  · rw [update_of_ne hsector, if_neg fun heq => hsector (by rw [heq])]

theorem writeFatEntry_of_ne (d : Disk) {c lba : ℕ} (value : ℕ)
    (hc : c < m.fatSize * 128) (hlba : lba < m.fatStart ∨ m.dataStart ≤ lba) :
    m.writeFatEntry c value d lba = d lba := by
  have hne := fatLba_lt_dataStart hg hc
  unfold writeFatEntry
  rw [update_of_ne (by omega)]

theorem of_findFreeCluster {d : Disk} (h : m.findFreeCluster d = some c) :
    2 ≤ c ∧ c < m.fatSize * 128 ∧ m.readFatEntry d c = 0 ∧
      ∀ c', 2 ≤ c' → c' < c → m.readFatEntry d c' ≠ 0 := by
  obtain ⟨hfree, hmem, hfirst⟩ := find?_range'_eq_some.mp h
  rw [mem_range'_1, fatEntries_eq hg] at hmem
  refine ⟨hmem.1, by omega, of_decide_eq_true hfree, fun c' h2 hlt => ?_⟩
  simpa using hfirst c' h2 hlt

theorem of_findFreeCluster_eq_none {d : Disk} (h : m.findFreeCluster d = none)
    (h2 : 2 ≤ c) (hc : c < m.fatSize * 128) : m.readFatEntry d c ≠ 0 := by
  have hall := find?_range'_eq_none.mp h c h2
  rw [fatEntries_eq hg] at hall
  simpa using hall (by omega)

theorem OnVolume.lt_fat (hc : m.OnVolume c) : c < m.fatSize * 128 :=
  hc.2.trans_le hg.covers

theorem OnVolume.not_end (hc : m.OnVolume c) : ¬ fat32IsEndOfChain c := by
  have hlt := hc.2
  have hle := hg.clusters_le
  unfold fat32IsEndOfChain
  omega

theorem OnVolume.lba_end_le (hc : m.OnVolume c) :
    m.dataStart + (c - 2) * m.sectorsPerCluster + m.sectorsPerCluster ≤ 2 ^ 32 := by
  have hle : (c - 2 + 1) * m.sectorsPerCluster ≤ m.clusterCount * m.sectorsPerCluster :=
    Nat.mul_le_mul_right _ (by have := hc.2; have := hc.1; omega)
  have hend := hg.dataEnd_le
  rw [Nat.add_mul] at hle
  omega

theorem clusterToLba_eq (hc : m.OnVolume c) :
    m.clusterToLba c = m.dataStart + (c - 2) * m.sectorsPerCluster := by
  have hend := hc.lba_end_le hg
  have hspc := hg.spc_pos
  have h2 := hc.1
  have hwrap : m.dataStart + (c + (2 ^ 32 - 2)) * m.sectorsPerCluster =
      m.dataStart + (c - 2) * m.sectorsPerCluster + 2 ^ 32 * m.sectorsPerCluster := by
    rw [show c + (2 ^ 32 - 2) = (c - 2) + 2 ^ 32 by omega, Nat.add_mul, Nat.add_assoc]
  unfold clusterToLba
  rw [hwrap, Nat.add_mul_mod_self_left, Nat.mod_eq_of_lt (by omega)]

theorem mem_lbas (hc : m.OnVolume c) (lba : ℕ) : lba ∈ m.lbas c ↔
      ∃ i < m.sectorsPerCluster, lba = m.dataStart + (c - 2) * m.sectorsPerCluster + i := by
  have hend := hc.lba_end_le hg
  unfold lbas
  rw [clusterToLba_eq hg hc, mem_map]
  constructor
  · rintro ⟨i, hi, rfl⟩
    rw [mem_range] at hi
    exact ⟨i, hi, Nat.mod_eq_of_lt (by omega)⟩
  · rintro ⟨i, hi, rfl⟩
    exact ⟨i, mem_range.mpr hi, Nat.mod_eq_of_lt (by omega)⟩

theorem dataStart_le_of_mem_lbas {c lba : ℕ} (hc : m.OnVolume c)
    (h : lba ∈ m.lbas c) : m.dataStart ≤ lba := by
  obtain ⟨i, -, rfl⟩ := (mem_lbas hg hc lba).mp h
  omega

theorem eq_of_mem_lbas {c c' lba : ℕ} (hc : m.OnVolume c) (hc' : m.OnVolume c')
    (h : lba ∈ m.lbas c) (h' : lba ∈ m.lbas c') : c = c' := by
  obtain ⟨i, hi, rfl⟩ := (mem_lbas hg hc lba).mp h
  obtain ⟨i', hi', heq⟩ := (mem_lbas hg hc' _).mp h'
  have hsum : (c - 2) * m.sectorsPerCluster + i = (c' - 2) * m.sectorsPerCluster + i' := by omega
  have hdiv := congrArg (· / m.sectorsPerCluster) hsum
  simp only [Nat.add_comm _ i, Nat.add_comm _ i', Nat.add_mul_div_right _ _ hg.spc_pos,
    Nat.div_eq_of_lt hi, Nat.div_eq_of_lt hi'] at hdiv
  have h2 := hc.1
  have h2' := hc'.1
  omega

theorem nodup_lbas (hc : m.OnVolume c) : (m.lbas c).Nodup := by
  have hend := hc.lba_end_le hg
  unfold lbas
  refine List.Nodup.map_on (fun i hi j hj hij => ?_) nodup_range
  rw [mem_range] at hi hj
  omega

end
end Fat32Mount
end SageOS
