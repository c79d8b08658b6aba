import SageOS.Fat32Integrity

/-!
# Reading back what was written

After a write inside the old size of a file, and after one that makes the file longer and finds the
file's own entry to store the new size in, the file has the new size and reads as its old bytes
with the data spliced in. A write that makes the file longer and finds no entry to rewrite leaves
the old size, so that the new bytes cannot be read.
-/
namespace SageOS
open LinkedChain List Option DirEntry

def splice (old : Bytes) (offset : ℕ) (data : Bytes) : Bytes :=
  old.take offset ++ data ++ old.drop (offset + data.length)

theorem take_overlay {a b data : Bytes} {size offset : ℕ} (hsize : size ≤ a.length)
    (hoff : offset ≤ size) (hfits : offset + data.length ≤ a.length + b.length) :
    (overlay (a ++ b) offset data).take (max size (offset + data.length)) =
      splice (a.take size) offset data := by
  unfold overlay splice
  apply ext_getElem?
  intro i
  simp only [getElem?_append, getElem?_take, getElem?_drop, length_take, length_append]
  grind

theorem DirEntry.fileSize_lt (e : DirEntry) : e.fileSize < 2 ^ 32 := by
  have h0 := (e 28).toNat_lt
  have h1 := (e 29).toNat_lt
  have h2 := (e 30).toNat_lt
  have h3 := (e 31).toNat_lt
  unfold fileSize
  omega

theorem DirEntry.fileSize_withSize (e : DirEntry) {n : ℕ} (hn : n < 2 ^ 32) :
    (e.withSize n).fileSize = n := by
  have h0 : ((e.withSize n) 28).toNat = n % 2 ^ 8 := by simp [withSize]
  have h1 : ((e.withSize n) 29).toNat = n / 2 ^ 8 % 2 ^ 8 := by simp [withSize]
  have h2 : ((e.withSize n) 30).toNat = n / 2 ^ 16 % 2 ^ 8 := by simp [withSize]
  have h3 : ((e.withSize n) 31).toNat = n / 2 ^ 24 % 2 ^ 8 := by simp [withSize]
  unfold fileSize
  omega

namespace Fat32Mount
variable (m : Fat32Mount)

/-- The chains are sound, and a file that is not empty has clusters for its size. -/
structure WellFormed (d : Disk) : Prop where
  chains : m.ChainsOk d
  sizes : ∀ s, m.FileSlot d s → 0 < (entryAt d s).fileSize → (entryAt d s).firstCluster ≠ 0 ∧
    ∀ l, m.ClusterChain d (entryAt d s).firstCluster l →
      (entryAt d s).fileSize ≤ l.length * m.clusterBytes

def FileBytes (d : Disk) (s : Slot) (old : Bytes) : Prop :=
  ∃ l, m.ClusterChain d (entryAt d s).firstCluster l ∧
    old = (content d (m.sectors l)).take (entryAt d s).fileSize

def ReadBack (d : Disk) (path : Bytes) (s : Slot) (offset : ℕ) (data : Bytes) : Prop :=
  ∀ d' old, m.fat32Write path offset data d = some ((data.length : ℤ), d') → m.FileBytes d s old →
    (∃ st, m.fat32Stat d' path = some (.ok st) ∧
      st.size = max (entryAt d s).fileSize (offset + data.length)) ∧
    ∀ o n, ∃ out, m.fat32Read d' path o n = some (toCInt out.length, out) ∧
      out = ((splice old offset data).drop o).take n

def EnoughFree (d : Disk) (s : Slot) (writeEnd : ℕ) : Prop :=
  ∀ l, m.ClusterChain d (entryAt d s).firstCluster l →
    writeEnd ≤ (l.length + (m.freeClusters d).card) * m.clusterBytes

variable {m} {d d' : Disk} {path : Bytes} {s : Slot} {offset : ℕ} {data : Bytes}

theorem fat32Stat_run (havail : m.available = true)
    (hfind : m.findRootEntry d path = some (some s)) :
    ∃ st, m.fat32Stat d path = some (.ok st) ∧ st.size = (entryAt d s).fileSize := by
  have hroot : path ≠ [slash] := by
    rintro rfl
    cases hfind
  unfold fat32Stat
  rw [if_neg (by simp [havail]), if_neg hroot, hfind]
  exact ⟨_, rfl, rfl⟩

theorem size_lt_of_fat32Stat {st : VfsStat} (h : m.fat32Stat d path = some (.ok st)) :
    st.size < 2 ^ 32 := by
  unfold fat32Stat at h
  split_ifs at h
  · cases some.inj h
  · obtain rfl := Except.ok.inj (some.inj h)
    decide
  · obtain ⟨r, -, hr⟩ := map_eq_some_iff.mp h
    cases r with
    | none => cases hr
    | some t =>
      obtain rfl := Except.ok.inj hr
      exact fileSize_lt _

section
variable (hg : m.Geometry) (hwf : m.WellFormed d) (havail : m.available = true)
  (hfind : m.findRootEntry d path = some (some s)) (hfile : (entryAt d s).isDirectory = false)
  (hpos : 0 < (entryAt d s).fileSize) (hoff : offset ≤ (entryAt d s).fileSize)

include hg hwf havail hfind hfile hpos hoff

theorem exists_storedWrite (hfree : m.EnoughFree d s (offset + data.length))
    (hlen : data.length < 2 ^ 31) :
    ∃ l l' d₁, m.ClusterChain d (entryAt d s).firstCluster l ∧
      m.Grown d d₁ (entryAt d s).firstCluster l l' ∧
      offset + data.length ≤ l'.length * m.clusterBytes ∧
      m.fat32Write path offset data d = (if (entryAt d s).fileSize < offset + data.length then
          m.updateDirectoryEntry ((m.sectors l').foldl writeSector ⟨d₁, offset, data⟩).disk
            m.rootCluster path ((entryAt d s).withSize (offset + data.length))
        else some ((m.sectors l').foldl writeSector ⟨d₁, offset, data⟩).disk).map fun d₂ =>
          ((data.length : ℤ), d₂) := by
  have hs := fileSlot_of_find hg hwf.chains hfind hfile
  obtain ⟨hcl, -⟩ := hwf.sizes s hs hpos
  obtain ⟨l, hl, hne, hvol⟩ := hwf.chains.chain (.file s) ⟨hs, hcl⟩
  have hend : (offset + data.length) % 2 ^ 64 = offset + data.length := by
    have hlt := (entryAt d s).fileSize_lt
    omega
  have hroom : m.Room d l ((offset + data.length) % 2 ^ 64) := by
    rw [hend]
    exact .inr (hfree l hl)
  obtain ⟨b, d₁, l', hgrown, hlong, henough, hrun⟩ :=
    exists_fat32Write hg havail hfind hfile hl hne hvol offset data hroom
  rw [hend] at hlong henough hrun
  obtain rfl := henough (hfree l hl)
  refine ⟨l, l', d₁, hl, hgrown, hlong rfl, ?_⟩
  have hrest : ((m.sectors l').foldl writeSector ⟨d₁, offset, data⟩).rest = [] := by
    have hcap := length_content_sectors (m := m) d l'
    have hlong' := hlong rfl
    rw [length_content] at hcap
    rw [foldl_writeSector_rest]
    exact drop_eq_nil_of_le (by dsimp only; omega)
  rw [hrun, hrest, length_nil, Nat.sub_zero, toCInt_of_lt hlen]

omit havail in
theorem content_written {l l' : List ℕ} {d₁ : Disk}
    (hl : m.ClusterChain d (entryAt d s).firstCluster l)
    (hgrown : m.Grown d d₁ (entryAt d s).firstCluster l l')
    (hlong : offset + data.length ≤ l'.length * m.clusterBytes)
    (hd' : ∀ lba ∈ m.sectors l',
      d' lba = ((m.sectors l').foldl writeSector ⟨d₁, offset, data⟩).disk lba) :
    (content d' (m.sectors l')).take (max (entryAt d s).fileSize (offset + data.length)) =
      splice ((content d (m.sectors l)).take (entryAt d s).fileSize) offset data := by
  have hs := fileSlot_of_find hg hwf.chains hfind hfile
  obtain ⟨hcl, hsize⟩ := hwf.sizes s hs hpos
  obtain ⟨k, hk, -, hvol⟩ := hwf.chains.chain (.file s) ⟨hs, hcl⟩
  obtain rfl := Chain.unique hl hk
  obtain ⟨new, rfl⟩ := hgrown.isPrefix
  have hnodup := nodup_sectors hg (Chain.nodup hgrown.chain) hgrown.onVolume
  have hold : content d₁ (m.sectors l) = content d (m.sectors l) :=
    content_congr fun lba hlba => hgrown.frame lba (.inr (dataStart_le_of_mem_sectors hg hvol hlba))
  have hlen := length_content_sectors (m := m) d₁ (l ++ new)
  rw [content_congr hd', content_foldl_writeSector hnodup]
  rw [sectors_append, content_append, hold] at hlen ⊢
  rw [length_append] at hlen
  refine take_overlay ?_ hoff (hlen ▸ hlong)
  rw [length_content_sectors]
  exact hsize l hl

theorem reads_written {l l' : List ℕ} {d₁ : Disk} {old : Bytes}
    (hl : m.ClusterChain d (entryAt d s).firstCluster l)
    (hgrown : m.Grown d d₁ (entryAt d s).firstCluster l l')
    (hlong : offset + data.length ≤ l'.length * m.clusterBytes)
    (hfin : m.Finished d d' s l l') (hd' : ∀ lba ∈ m.sectors l',
      d' lba = ((m.sectors l').foldl writeSector ⟨d₁, offset, data⟩).disk lba)
    (hsize : (entryAt d' s).fileSize = max (entryAt d s).fileSize (offset + data.length))
    (hold : m.FileBytes d s old) :
    (∃ st, m.fat32Stat d' path = some (.ok st) ∧
      st.size = max (entryAt d s).fileSize (offset + data.length)) ∧
    ∀ o n, ∃ out, m.fat32Read d' path o n = some (toCInt out.length, out) ∧
      out = ((splice old offset data).drop o).take n := by
  have hs := fileSlot_of_find hg hwf.chains hfind hfile
  obtain ⟨hcl, -⟩ := hwf.sizes s hs hpos
  have htouched := hfin.touched hg hwf.chains hs hcl hl
  obtain ⟨hchain, -⟩ := htouched.chain hcl
  have hvol := htouched.onVolume
  have hentry := htouched.entry
  have hfind' : m.findRootEntry d' path = some (some s) :=
    ((htouched.sameDirs hg hwf.chains).findRootEntry (hwf.chains.dirsEnd hg) path).trans hfind
  constructor
  · rw [← hsize]
    exact fat32Stat_run havail hfind'
  · intro o n
    obtain ⟨k, hk, rfl⟩ := hold
    obtain rfl := Chain.unique hk hl
    rw [← hentry.firstCluster] at hchain
    obtain ⟨out, hrun, hout⟩ :=
      fat32Read_run hg havail hfind' (hentry.isDirectory.trans hfile) hchain hvol o n
    refine ⟨out, hrun, ?_⟩
    rw [hout, hsize, content_written hg hwf hfind hfile hpos hoff hl hgrown hlong hd']

end

theorem lt_of_fat32Write {ret : ℤ} (h : m.fat32Write path offset data d = some (ret, d')) :
    ret < 2 ^ 31 := by
  unfold fat32Write at h
  split_ifs at h
  · cases h
    decide
  obtain ⟨found, -, h⟩ := bind_eq_some_iff.mp h
  cases found with
  | none =>
    cases h
    decide
  | some s =>
    dsimp only at h
    split_ifs at h
    · cases h
      decide
    all_goals
      obtain ⟨⟨b, d₁⟩, -, h⟩ := bind_eq_some_iff.mp h
      cases b with
      | false =>
        cases h
        decide
      | true =>
        obtain ⟨st, -, h⟩ := bind_eq_some_iff.mp h
        obtain ⟨d₂, -, h⟩ := map_eq_some_iff.mp h
        obtain ⟨rfl, -⟩ := Prod.mk.inj h
        exact toCInt_lt _

variable (m) in
/-- The size need not change, or the file's own entry is found and can hold the new one. -/
def SizeKept (d : Disk) (path : Bytes) (s : Slot) (writeEnd : ℕ) : Prop :=
  writeEnd ≤ (entryAt d s).fileSize ∨
    writeEnd < 2 ^ 32 ∧ m.updateTarget d m.rootCluster path = some (some s)

variable (m) in
/-- The new size does not fit into an entry, or no entry is found. -/
def SizeLost (d : Disk) (path : Bytes) (s : Slot) (writeEnd : ℕ) : Prop :=
  (entryAt d s).fileSize < writeEnd ∧
    (2 ^ 32 ≤ writeEnd ∨ m.updateTarget d m.rootCluster path = some none)

theorem fat32Write_readBack (m : Fat32Mount) (d : Disk) (path : Bytes) (s : Slot) (offset : ℕ)
    (data : Bytes) (hg : m.Geometry) (hwf : m.WellFormed d) (havail : m.available = true)
    (hfind : m.findRootEntry d path = some (some s)) (hfile : (entryAt d s).isDirectory = false)
    (hpos : 0 < (entryAt d s).fileSize) (hoff : offset ≤ (entryAt d s).fileSize)
    (hfree : m.EnoughFree d s (offset + data.length)) :
    (m.SizeKept d path s (offset + data.length) → m.ReadBack d path s offset data) ∧
      (data.length < 2 ^ 31 → m.SizeLost d path s (offset + data.length) →
        ¬ m.ReadBack d path s offset data) := by
  have hs := fileSlot_of_find hg hwf.chains hfind hfile
  obtain ⟨hcl, -⟩ := hwf.sizes s hs hpos
  constructor
  · intro hkept d' old hwrite hold
    have hlen : data.length < 2 ^ 31 := by exact_mod_cast lt_of_fat32Write hwrite
    obtain ⟨l, l', d₁, hl, hgrown, hlong, hrun⟩ :=
      exists_storedWrite hg hwf havail hfind hfile hpos hoff hfree hlen
    have hw := hgrown.written offset data
    obtain ⟨-, hslot, -, -, hsame, -⟩ := hw.slot hg hwf.chains hs hcl hl
    rw [hwrite] at hrun
    by_cases hlonger : (entryAt d s).fileSize < offset + data.length
    · obtain ⟨hfits, htarget⟩ := hkept.resolve_left (by omega)
      rw [if_pos hlonger, updateDirectoryEntry, (hw.sameDirs hg hwf.chains hs hcl hl).updateTarget
        (hwf.chains.dirsEnd hg), htarget] at hrun
      cases hrun
      refine reads_written hg hwf havail hfind hfile hpos hoff hl hgrown hlong
        ⟨_, hw, .inr ⟨_, rfl⟩⟩ (fun lba hlba => ?_) ?_ hold
      · exact setEntry_of_ne (fun heq => hslot (heq ▸ hlba)) _ _
      · rw [entryAt_setEntry, fileSize_withSize _ hfits]
        omega
    · rw [if_neg hlonger] at hrun
      cases hrun
      refine reads_written hg hwf havail hfind hfile hpos hoff hl hgrown hlong
        ⟨_, hw, .inl rfl⟩ (fun _ _ => rfl) ?_ hold
      rw [hsame]
      omega
  · rintro hlen ⟨hlonger, hlost⟩ hback
    obtain ⟨l, l', d₁, hl, hgrown, -, hrun⟩ :=
      exists_storedWrite hg hwf havail hfind hfile hpos hoff hfree hlen
    have hw := hgrown.written offset data
    have hsame := hw.sameDirs hg hwf.chains hs hcl hl
    obtain ⟨-, -, -, -, hentry, -⟩ := hw.slot hg hwf.chains hs hcl hl
    obtain ⟨k, hk, hklen⟩ := hwf.chains.dirsEnd hg _ .root
    rw [if_pos hlonger, updateDirectoryEntry, hsame.updateTarget (hwf.chains.dirsEnd hg)] at hrun
    rcases hlost with hbig | hnone
    · rw [updateTarget_chain hk hklen] at hrun
      obtain ⟨⟨st, hst, hsize⟩, -⟩ := hback _ _ hrun ⟨l, hl, rfl⟩
      have hlt := size_lt_of_fat32Stat hst
      omega
    · rw [hnone] at hrun
      obtain ⟨⟨st, hst, hsize⟩, -⟩ := hback _ _ hrun ⟨l, hl, rfl⟩
      obtain ⟨st', hst', hsize'⟩ :=
        fat32Stat_run havail ((hsame.findRootEntry (hwf.chains.dirsEnd hg) path).trans hfind)
      rw [hst'] at hst
      obtain rfl := Except.ok.inj (some.inj hst)
      rw [hsize', hentry] at hsize
      omega

theorem wellFormed_oneFileDisk : smallMount.WellFormed oneFileDisk := by
  refine ⟨oneFile_oneFileDisk.chainsOk, fun s hs _ => ?_⟩
  obtain rfl := oneFile_oneFileDisk.fileSlot hs
  refine ⟨by decide, fun l hl => ?_⟩
  rw [Chain.unique hl chain_oneFileDisk]
  decide

theorem write_to_one_file_readBack : smallMount.ReadBack oneFileDisk (bytes "a") ⟨2, 0⟩ 1 [7] :=
  (fat32Write_readBack smallMount oneFileDisk (bytes "a") ⟨2, 0⟩ 1 [7] smallMount_geometry
    wellFormed_oneFileDisk rfl (by decide) (by decide) (by decide)
    (by decide) fun l hl => le_trans (by decide) (room_oneFileDisk l hl)).1
    (.inr ⟨by decide, by decide⟩)

/-- The size of a file that was found under a path with a leading slash is not rewritten. -/
theorem write_under_full_path_keeps_size :
    smallMount.Geometry ∧ smallMount.WellFormed oneFileDisk ∧ smallMount.available = true ∧
      smallMount.findRootEntry oneFileDisk (bytes "/a") = some (some ⟨2, 0⟩) ∧
      (entryAt oneFileDisk ⟨2, 0⟩).isDirectory = false ∧
      (entryAt oneFileDisk ⟨2, 0⟩).fileSize = 1 ∧ smallMount.EnoughFree oneFileDisk ⟨2, 0⟩ 2 ∧
      ∃ d', smallMount.fat32Write (bytes "/a") 0 [7, 8] oneFileDisk = some (2, d') ∧
        ∃ st, smallMount.fat32Stat d' (bytes "/a") = some (.ok st) ∧ st.size = 1 := by
  refine ⟨smallMount_geometry, wellFormed_oneFileDisk, rfl, by decide, by decide,
    by decide, fun l hl => le_trans (by decide) (room_oneFileDisk l hl), ?_⟩
  have hwrite : ((smallMount.fat32Write (bytes "/a") 0 [7, 8] oneFileDisk).map fun r =>
      (r.1, (smallMount.fat32Stat r.2 (bytes "/a")).map fun
        | .ok st => st.size
        | .error _ => 0)) = some (2, some 1) := by
    decide
  obtain ⟨⟨ret, d'⟩, hrun, hr⟩ := map_eq_some_iff.mp hwrite
  obtain ⟨rfl, hstat⟩ := Prod.mk.inj hr
  refine ⟨d', hrun, ?_⟩
  obtain ⟨r, hst, hsize⟩ := map_eq_some_iff.mp hstat
  cases r with
  | ok st => exact ⟨st, hst, hsize⟩
  | error e => cases hsize

end Fat32Mount
end SageOS
