import SageOS.Fat32Integrity

/-!
# Reading a slice of a file

A read copies the bytes of the file's clusters from the offset on, as many as are asked for, as the
file has and as the chain holds, and leaves the rest of the buffer alone. The count is returned as
a 32-bit integer with a sign, so that it is the number of copied bytes only below 2^31.
-/
namespace SageOS.Fat32Mount
open LinkedChain List
variable (m : Fat32Mount)

/-- A read together with the buffer of the caller. -/
def fat32ReadInto (d : Disk) (path : Bytes) (offset size : ℕ) (buffer : Bytes) :
    Option (ℤ × Bytes) :=
  (m.fat32Read d path offset size).map fun r => (r.1, overlay buffer 0 r.2)

/-- The bytes of a file with the clusters `l` that a request asks for. -/
def sliceCount (d : Disk) (s : Slot) (l : List ℕ) (offset size : ℕ) : ℕ :=
  min size (min (entryAt d s).fileSize (l.length * m.clusterBytes) - offset)

/-- The request returns the count, copies the slice, and touches no other byte of the buffer. -/
def ReadsSlice (d : Disk) (path : Bytes) (s : Slot) (l : List ℕ) (offset size : ℕ) : Prop :=
  ∀ buffer : Bytes, size ≤ buffer.length → ∃ buffer',
    m.fat32ReadInto d path offset size buffer =
        some ((m.sliceCount d s l offset size : ℤ), buffer') ∧
      buffer'.take (m.sliceCount d s l offset size) =
        ((content d (m.sectors l)).drop offset).take (m.sliceCount d s l offset size) ∧
      buffer'.drop (m.sliceCount d s l offset size) =
        buffer.drop (m.sliceCount d s l offset size)

variable {m} {d : Disk} {path : Bytes} {s : Slot} {l : List ℕ} {offset size : ℕ}

theorem length_slice (d : Disk) (s : Slot) (l : List ℕ) (offset size : ℕ) :
    ((((content d (m.sectors l)).take (entryAt d s).fileSize).drop offset).take size).length =
      m.sliceCount d s l offset size := by
  rw [length_take, length_drop, length_take, length_content_sectors]
  rfl

theorem slice_eq (d : Disk) (s : Slot) (l : List ℕ) (offset size : ℕ) :
    (((content d (m.sectors l)).take (entryAt d s).fileSize).drop offset).take size =
      ((content d (m.sectors l)).drop offset).take (m.sliceCount d s l offset size) := by
  have hlen := length_content_sectors (m := m) d l
  rw [drop_take, take_take]
  apply take_eq_take_iff.mpr
  rw [length_drop, hlen]
  unfold sliceCount
  omega

theorem overlay_zero {buffer out : Bytes} (h : out.length ≤ buffer.length) :
    overlay buffer 0 out = out ++ buffer.drop out.length := by
  unfold overlay
  rw [take_zero, nil_append, Nat.sub_zero, take_of_length_le h, Nat.zero_add]

theorem fat32Read_slice (hg : m.Geometry) (havail : m.available = true)
    (hfind : m.findRootEntry d path = some (some s)) (hfile : (entryAt d s).isDirectory = false)
    (hl : 0 < (entryAt d s).fileSize →
      m.ClusterChain d (entryAt d s).firstCluster l ∧ ∀ a ∈ l, m.OnVolume a) (offset size : ℕ) :
    m.fat32Read d path offset size = some (toCInt (m.sliceCount d s l offset size),
      ((content d (m.sectors l)).drop offset).take (m.sliceCount d s l offset size)) := by
  by_cases hempty : (entryAt d s).fileSize = 0
  · have hcount : m.sliceCount d s l offset size = 0 := by
      unfold sliceCount
      omega
    unfold fat32Read
    rw [if_neg (by simp [havail]), hfind]
    dsimp only [Option.bind_some]
    rw [if_neg (by simp [hfile]), if_pos (by omega), hcount]
    rfl
  · obtain ⟨hchain, hvol⟩ := hl (Nat.pos_of_ne_zero hempty)
    obtain ⟨out, hrun, hout⟩ := fat32Read_run hg havail hfind hfile hchain hvol offset size
    rw [hrun, hout, length_slice, slice_eq]

theorem fat32Read_slice_iff (m : Fat32Mount) (d : Disk) (path : Bytes) (s : Slot) (l : List ℕ)
    (offset size : ℕ) (hg : m.Geometry) (havail : m.available = true)
    (hfind : m.findRootEntry d path = some (some s)) (hfile : (entryAt d s).isDirectory = false)
    (hl : 0 < (entryAt d s).fileSize →
      m.ClusterChain d (entryAt d s).firstCluster l ∧ ∀ a ∈ l, m.OnVolume a) :
    m.ReadsSlice d path s l offset size ↔ m.sliceCount d s l offset size < 2 ^ 31 := by
  have hrun := fat32Read_slice hg havail hfind hfile hl offset size
  unfold ReadsSlice fat32ReadInto
  rw [hrun]
  constructor
  · intro h
    obtain ⟨buffer', heq, -⟩ := h (replicate size 0) (by simp)
    have hret : toCInt (m.sliceCount d s l offset size) = m.sliceCount d s l offset size :=
      (Prod.mk.inj (Option.some.inj heq)).1
    have hlt := toCInt_lt (m.sliceCount d s l offset size)
    omega
  · intro hlt buffer hbuffer
    have hlen := length_slice (m := m) d s l offset size
    rw [slice_eq] at hlen
    have hle : m.sliceCount d s l offset size ≤ size := Nat.min_le_left _ _
    refine ⟨_, by rw [Option.map_some, toCInt_of_lt hlt], ?_, ?_⟩ <;> dsimp only
    · rw [overlay_zero (by omega), take_left' hlen]
    · rw [overlay_zero (by omega), drop_left' hlen, hlen]

theorem read_of_one_file_slice : smallMount.ReadsSlice oneFileDisk (bytes "a") ⟨2, 0⟩ [3] 0 1 :=
  (fat32Read_slice_iff smallMount oneFileDisk (bytes "a") ⟨2, 0⟩ [3] 0 1 smallMount_geometry rfl
    (by decide) (by decide) fun _ => by
      have hfirst : (entryAt oneFileDisk ⟨2, 0⟩).firstCluster = 3 := by decide
      rw [hfirst]
      exact ⟨chain_oneFileDisk, by simp [OnVolume]; decide⟩).mpr (by decide)

/-- Room for a file of 2 GiB in clusters of one sector. -/
def bigMount : Fat32Mount where
  partitionLba := 0
  rootCluster := 2
  sectorsPerCluster := 1
  reservedSectors := 1
  fatCount := 1
  fatSize := 32769
  totalSectors := 1 + 32769 + (2 ^ 22 + 1)

/-- The file has the clusters 3 to `2 ^ 22 + 2` in this order. -/
def bigNext (c : ℕ) : ℕ := if 3 ≤ c ∧ c < 2 ^ 22 + 2 then c + 1 else 0x0FFFFFFF

def bigDisk : Disk := fun lba i =>
  if lba < 32770 then (bigNext ((lba - 1) * 128 + i / 4) / 2 ^ (8 * (i % 4))).toUInt8
  else if lba = 32770 then
    (bytes "A          " ++
      [0x20, 0, 0, 0, 0, 0, 0, 0, 0, 0, 0, 0, 0, 0, 0, 3, 0, 0, 0, 0, 0x80]).getD i 0
  else 0

theorem bigMount_geometry : bigMount.Geometry :=
  ⟨by decide, by decide, by decide, by decide, by decide, by decide⟩

theorem readFatEntry_bigDisk {c : ℕ} (hc : c < 32769 * 128) :
    bigMount.readFatEntry bigDisk c = bigNext c := by
  have hlba : bigMount.fatLba c = 1 + c / 128 := fatLba_eq bigMount_geometry hc
  have hnext : bigNext c < 2 ^ 28 := by
    unfold bigNext
    split_ifs <;> omega
  have hbyte : ∀ k < 4, (bigDisk (1 + c / 128) (c % 128 * 4 + k)).toNat =
      bigNext c / 2 ^ (8 * k) % 2 ^ 8 := by
    intro k hk
    have hlt : 1 + c / 128 < 32770 := by omega
    unfold bigDisk
    rw [if_pos hlt, toNat_toUInt8, show (c % 128 * 4 + k) / 4 = c % 128 by omega,
      show (c % 128 * 4 + k) % 4 = k by omega, show (1 + c / 128 - 1) * 128 + c % 128 = c by omega]
  unfold readFatEntry le32
  rw [hlba, fatIndex_eq, hbyte 1 (by omega), hbyte 2 (by omega), hbyte 3 (by omega),
    ← Nat.add_zero (c % 128 * 4), hbyte 0 (by omega)]
  omega

theorem chain_bigDisk (k : ℕ) (hk : k < 2 ^ 22) :
    bigMount.ClusterChain bigDisk (2 ^ 22 + 2 - k) (List.range' (2 ^ 22 + 2 - k) (k + 1)) := by
  induction k with
  | zero =>
    refine ⟨rfl, by decide, ?_⟩
    rw [readFatEntry_bigDisk (by decide)]
    change fat32IsEndOfChain _
    decide
  | succ k ih =>
    have hnext : bigNext (2 ^ 22 + 2 - (k + 1)) = 2 ^ 22 + 2 - k := by
      unfold bigNext
      rw [if_pos (by omega)]
      omega
    rw [List.range'_succ]
    refine ⟨rfl, ?_, ?_⟩
    · unfold fat32IsEndOfChain
      omega
    · rw [readFatEntry_bigDisk (by omega), hnext,
        show 2 ^ 22 + 2 - (k + 1) + 1 = 2 ^ 22 + 2 - k by omega]
      exact ih (by omega)

theorem onVolume_bigDisk : ∀ a ∈ List.range' 3 (2 ^ 22), bigMount.OnVolume a := by
  have hcount : bigMount.clusterCount = 2 ^ 22 + 1 := by decide
  intro a ha
  rw [mem_range'_1] at ha
  unfold OnVolume
  omega

theorem oneFile_bigDisk : bigMount.OneFile bigDisk [2] ⟨32770, 0⟩ (List.range' 3 (2 ^ 22)) := by
  have hfirst : (entryAt bigDisk ⟨32770, 0⟩).firstCluster = 3 := by decide
  refine ⟨⟨⟨rfl, by decide, ?_⟩, by decide⟩, by decide, .inr ⟨?_, ?_, ?_⟩⟩
  · rw [show bigMount.rootCluster = 2 from rfl, readFatEntry_bigDisk (by decide)]
    change fat32IsEndOfChain _
    decide
  · rw [hfirst]
    exact chain_bigDisk (2 ^ 22 - 1) (by decide)
  · exact ⟨by simp, onVolume_bigDisk⟩
  · intro a ha hmem
    rw [mem_singleton] at ha
    rw [mem_range'_1] at hmem
    omega

/-- All bytes of a file of 2 GiB are copied, and the result is negative. -/
theorem read_of_big_file_returns_negative :
    bigMount.Geometry ∧ bigMount.ChainsOk bigDisk ∧ bigMount.available = true ∧
      bigMount.findRootEntry bigDisk (bytes "a") = some (some ⟨32770, 0⟩) ∧
      (entryAt bigDisk ⟨32770, 0⟩).isDirectory = false ∧
      (entryAt bigDisk ⟨32770, 0⟩).fileSize = 2 ^ 31 ∧
      ∃ l out, bigMount.ClusterChain bigDisk (entryAt bigDisk ⟨32770, 0⟩).firstCluster l ∧
        l.length * bigMount.clusterBytes = 2 ^ 31 ∧
        bigMount.fat32Read bigDisk (bytes "a") 0 (2 ^ 31) = some (-2 ^ 31, out) ∧
        out.length = 2 ^ 31 := by
  have hfind : bigMount.findRootEntry bigDisk (bytes "a") = some (some ⟨32770, 0⟩) := by
    decide
  have hfile : (entryAt bigDisk ⟨32770, 0⟩).isDirectory = false := by decide
  have hsize : (entryAt bigDisk ⟨32770, 0⟩).fileSize = 2 ^ 31 := by decide
  have hfirst : (entryAt bigDisk ⟨32770, 0⟩).firstCluster = 3 := by decide
  have hchain : bigMount.ClusterChain bigDisk 3 (List.range' 3 (2 ^ 22)) :=
    chain_bigDisk (2 ^ 22 - 1) (by decide)
  have hbytes : bigMount.clusterBytes = 512 := rfl
  have hcount : bigMount.sliceCount bigDisk ⟨32770, 0⟩ (List.range' 3 (2 ^ 22)) 0 (2 ^ 31) =
      2 ^ 31 := by
    unfold sliceCount
    rw [hsize, length_range', hbytes]
    omega
  have hlen := length_slice (m := bigMount) bigDisk ⟨32770, 0⟩ (List.range' 3 (2 ^ 22)) 0 (2 ^ 31)
  have hrun := fat32Read_slice bigMount_geometry rfl hfind hfile
    (fun _ => ⟨hfirst ▸ hchain, onVolume_bigDisk⟩) 0 (2 ^ 31)
  rw [slice_eq, hcount] at hlen
  rw [hcount] at hrun
  refine ⟨bigMount_geometry, oneFile_bigDisk.chainsOk, rfl, hfind, hfile, hsize,
    List.range' 3 (2 ^ 22), _, hfirst ▸ hchain, ?_, hrun, hlen⟩
  rw [length_range', hbytes]
  norm_num

end SageOS.Fat32Mount
