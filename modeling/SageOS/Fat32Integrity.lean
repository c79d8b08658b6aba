import SageOS.Fat32Written

/-!
# Integrity of the volume under writes

A write to a file keeps the chains sound, leaves all other files alone and modifies no sector
outside the allocation table, the clusters of the file and its directory entry, when a file that
gets bytes or clusters has a first cluster, the allocator stays on the volume, and the entry that is
rewritten is the file's own. Bytes for an empty file end up in entry 0 of the table.
-/
namespace SageOS
open LinkedChain List
namespace Fat32Mount
variable (m : Fat32Mount)

structure Intact (d d' : Disk) (s : Slot) : Prop where
  chains : m.ChainsOk d'
  otherChains : ∀ o, m.Owns d o → o ≠ .file s → ∀ k, m.ClusterChain d (o.head d) k →
    m.ClusterChain d' (o.head d) k
  otherFiles : ∀ t, m.Owns d (.file t) → t ≠ s → ∀ k,
    m.ClusterChain d (entryAt d t).firstCluster k → ∀ lba ∈ m.sectors k, d' lba = d lba
  reserved : m.readFatEntry d' 0 = m.readFatEntry d 0 ∧ m.readFatEntry d' 1 = m.readFatEntry d 1
  modified : ∀ lba, d' lba ≠ d lba → m.fatStart ≤ lba ∧ lba < m.dataStart ∨ lba = s.lba ∨
    ∃ k, m.ClusterChain d' (entryAt d' s).firstCluster k ∧ lba ∈ m.sectors k

theorem Intact.refl {d : Disk} (hok : m.ChainsOk d) (s : Slot) : m.Intact d d s :=
  ⟨hok, fun _ _ _ _ hk => hk, fun _ _ _ _ _ _ _ => rfl, ⟨rfl, rfl⟩, fun _ h => absurd rfl h⟩

/-- At most the clusters `l'` of the file, its part of the table and its entry have changed. A file
without a first cluster has none. -/
structure Touched (d d' : Disk) (s : Slot) (l' : List ℕ) : Prop where
  chain : (entryAt d s).firstCluster ≠ 0 → m.ClusterChain d' (entryAt d s).firstCluster l' ∧ l' ≠ []
  none : (entryAt d s).firstCluster = 0 → l' = []
  onVolume : ∀ a ∈ l', m.OnVolume a
  disjoint : ∀ o, m.Owns d o → o ≠ .file s → ∀ k, m.ClusterChain d (o.head d) k → k.Disjoint l'
  fat : ∀ a < m.fatSize * 128, a ∉ l' → m.readFatEntry d' a = m.readFatEntry d a
  frame : ∀ lba, lba < m.fatStart ∨ m.dataStart ≤ lba → lba ∉ m.sectors l' → lba ≠ s.lba →
    d' lba = d lba
  entry : SameEntry (entryAt d s) (entryAt d' s)
  entries : ∀ t, t ≠ s → (∃ k < 16, t.offset = 32 * k) → m.dataStart ≤ t.lba →
    t.lba ∉ m.sectors l' → entryAt d' t = entryAt d t

variable {m} {d d' : Disk} {l l' : List ℕ} {s : Slot}
section
variable (hg : m.Geometry) (hok : m.ChainsOk d) (hs : m.FileSlot d s)

include hg hok

section
variable (hcl : (entryAt d s).firstCluster ≠ 0)
  (hl : m.ClusterChain d (entryAt d s).firstCluster l) (h : m.Finished d d' s l l')

include hs hcl hl h

theorem Finished.exists_written : ∃ d₂, m.Written d d₂ (entryAt d s).firstCluster l l' ∧
      (∀ lba, lba ≠ s.lba → d' lba = d₂ lba) ∧
      (∀ a < m.fatSize * 128, m.readFatEntry d' a = m.readFatEntry d₂ a) ∧
      SameEntry (entryAt d s) (entryAt d' s) ∧
      ∀ t, t ≠ s → (∃ k < 16, t.offset = 32 * k) → entryAt d' t = entryAt d₂ t := by
  obtain ⟨d₂, hw, hd'⟩ := h
  obtain ⟨hdata, -, hoff, hattr, hsame, -⟩ := hw.slot hg hok hs hcl hl
  rcases hd' with rfl | ⟨n, rfl⟩
  · exact ⟨d', hw, fun _ _ => rfl, fun _ _ => rfl, .inl hsame, fun _ _ _ => rfl⟩
  · have hne := fun lba (hlba : lba ≠ s.lba) =>
      setEntry_of_ne hlba ((entryAt d s).withSize n) d₂
    refine ⟨d₂, hw, hne, fun a ha => ?_, .inr ⟨hattr, n, entryAt_setEntry _ _ _⟩,
      fun t ht htoff => ?_⟩
    · exact readFatEntry_congr hg (fun lba _ hlt => hne lba (by omega)) ha
    · exact entryAt_setEntry_of_ne ht hoff htoff _ _

theorem Finished.touched : m.Touched d d' s l' := by
  obtain ⟨d₂, hw, hlba, hfat, hown, hother⟩ := h.exists_written hg hok hs hcl hl
  refine ⟨fun _ => ⟨?_, ?_⟩, fun h => absurd h hcl, hw.onVolume, fun o ho hne k hk => ?_,
    fun a ha hnot => ?_, fun lba hout hnot hne => ?_, hown, fun t ht htoff hdata hnot => ?_⟩
  · exact Chain.congr (hw.chain hg) fun a ha => hfat a ((hw.onVolume a ha).lt_fat hg)
  · obtain ⟨k, hk, hne, -⟩ := hok.chain (.file s) ⟨hs, hcl⟩
    obtain rfl := Chain.unique hk hl
    obtain ⟨d₁, hgrown, -⟩ := hw
    rintro rfl
    exact hne (List.prefix_nil.mp hgrown.isPrefix)
  · exact (hw.disjoint_owner hok hs hcl hl ho hne hk).2
  · rw [hfat a ha, hw.fat hg ha hnot]
  · rw [hlba lba hne, hw.frame hout hnot]
  · rw [hother t ht htoff]
    funext i
    unfold entryAt
    rw [hw.frame (.inr hdata) hnot]

end

/-- The size in the entry of a file without clusters is rewritten. -/
theorem touched_setEntry (hs : m.FileSlot d s) (hcl : (entryAt d s).firstCluster = 0) (n : ℕ) :
    m.Touched d (setEntry s ((entryAt d s).withSize n) d) s [] := by
  obtain ⟨c, k, hc, hk, hlive, -⟩ := hs
  obtain ⟨k', hk', -, hvol⟩ := hok.chain (.dir c) hc
  obtain rfl := Chain.unique hk hk'
  obtain ⟨hlba, hoff⟩ := mem_dirSlots.mp (mem_dirSlots_of_live hlive)
  have hdata := dataStart_le_of_mem_sectors hg hvol hlba
  have hattr := (of_decide_eq_true (mem_filter.mp hlive).2).2
  refine ⟨fun h => absurd hcl h, fun _ => rfl, fun a ha => absurd ha not_mem_nil,
    fun _ _ _ _ _ => disjoint_nil_right _, fun a ha _ => ?_,
    fun lba _ _ hne => setEntry_of_ne hne _ _, .inr ⟨hattr, n, entryAt_setEntry _ _ _⟩,
    fun t ht htoff _ _ => ?_⟩
  · exact readFatEntry_congr hg (fun lba _ hlt => setEntry_of_ne (by omega) _ _) ha
  · exact entryAt_setEntry_of_ne ht hoff htoff _ _

namespace Touched
variable (h : m.Touched d d' s l')

include h

theorem owner {o : Owner} (ho : m.Owns d o) (hne : o ≠ .file s) {k : List ℕ}
    (hk : m.ClusterChain d (o.head d) k) : (∀ a ∈ k, m.OnVolume a) ∧ k.Disjoint l' ∧
      ∀ a ∈ k, m.readFatEntry d' a = m.readFatEntry d a := by
  obtain ⟨k', hk', -, hvol⟩ := hok.chain o ho
  obtain rfl := Chain.unique hk hk'
  have hdisj := h.disjoint o ho hne k hk
  exact ⟨hvol, hdisj, fun a ha => h.fat a ((hvol a ha).lt_fat hg) (hdisj ha)⟩

theorem sameDirs : m.SameDirs d d' := by
  intro c k hc hk
  obtain ⟨hvol, hdisj, hfat⟩ := h.owner hg hok (o := .dir c) hc nofun hk
  refine ⟨hfat, fun t ht => ?_⟩
  obtain ⟨hlba, htoff⟩ := mem_dirSlots.mp ht
  by_cases heq : t = s
  · rw [heq]
    exact h.entry
  · exact .inl (h.entries t heq htoff (dataStart_le_of_mem_sectors hg hvol hlba) fun hmem =>
      disjoint_sectors hg hvol h.onVolume hdisj hlba hmem)

theorem head {o : Owner} (ho : m.Owns d o) : o.head d' = o.head d := by
  cases o with
  | dir c => rfl
  | file t =>
    obtain ⟨c, k, hc, hk, hlive, -⟩ := ho.1
    exact ((h.sameDirs hg hok).entry hc hk hlive).firstCluster

theorem owns_iff (o : Owner) : m.Owns d' o ↔ m.Owns d o := by
  have hsame := h.sameDirs hg hok
  cases o with
  | dir c => exact hsame.dirHead_iff (hok.dirsEnd hg) c
  | file t =>
    have hslot := hsame.fileSlot_iff (hok.dirsEnd hg) t
    constructor
    · rintro ⟨hfile, hfirst⟩
      obtain ⟨c, k, hc, hk, hlive, hkind⟩ := hslot.mp hfile
      exact ⟨hslot.mp hfile, (hsame.entry hc hk hlive).firstCluster ▸ hfirst⟩
    · rintro ⟨hfile, hfirst⟩
      obtain ⟨c, k, hc, hk, hlive, hkind⟩ := id hfile
      refine ⟨hslot.mpr hfile, ?_⟩
      rw [(hsame.entry hc hk hlive).firstCluster]
      exact hfirst

theorem chainsOk : m.ChainsOk d' := by
  have hother : ∀ {o : Owner} {k : List ℕ}, m.Owns d o → o ≠ .file s →
      m.ClusterChain d' (o.head d) k → m.ClusterChain d (o.head d) k ∧ k.Disjoint l' := by
    intro o k ho hne hk
    obtain ⟨k₀, hk₀, -, -⟩ := hok.chain o ho
    obtain ⟨-, hdisj, hfat⟩ := h.owner hg hok ho hne hk₀
    obtain rfl := Chain.unique hk (Chain.congr hk₀ hfat)
    exact ⟨hk₀, hdisj⟩
  refine ⟨fun o ho => ?_, fun o o' ho ho' hne k k' hk hk' => ?_⟩
  · rw [h.owns_iff hg hok] at ho
    rw [h.head hg hok ho]
    by_cases heq : o = .file s
    · subst heq
      obtain ⟨hchain, hnil⟩ := h.chain ho.2
      exact ⟨l', hchain, hnil, h.onVolume⟩
    · obtain ⟨k, hk, hknil, hkvol⟩ := hok.chain o ho
      exact ⟨k, Chain.congr hk (h.owner hg hok ho heq hk).2.2, hknil, hkvol⟩
  · rw [h.owns_iff hg hok] at ho ho'
    rw [h.head hg hok ho] at hk
    rw [h.head hg hok ho'] at hk'
    by_cases heq : o = .file s
    · subst heq
      rw [Chain.unique hk (h.chain ho.2).1]
      exact (hother ho' hne.symm hk').2.symm
    by_cases heq' : o' = .file s
    · subst heq'
      rw [Chain.unique hk' (h.chain ho'.2).1]
      exact (hother ho heq hk).2
    · exact hok.disjoint o o' ho ho' hne k k' (hother ho heq hk).1 (hother ho' heq' hk').1

theorem intact (hs : m.FileSlot d s) : m.Intact d d' s := by
  have hlow : ∀ a < 2, m.readFatEntry d' a = m.readFatEntry d a := by
    intro a ha
    have hcov := hg.covers
    exact h.fat a (by omega) fun hmem => absurd (h.onVolume a hmem).1 (by omega)
  refine ⟨h.chainsOk hg hok, fun o ho hne k hk => ?_, fun t ht hne k hk lba hmem => ?_,
    ⟨hlow 0 (by decide), hlow 1 (by decide)⟩, fun lba hmod => ?_⟩
  · exact Chain.congr hk (h.owner hg hok ho hne hk).2.2
  · obtain ⟨c, kdir, hc, hkdir, hlive, -⟩ := hs
    obtain ⟨hvol, hdisj, -⟩ := h.owner hg hok ht (fun heq => hne (Owner.file.inj heq)) hk
    obtain ⟨hvol', -, -⟩ := h.owner hg hok (o := .dir c) hc nofun hkdir
    have hslot := (mem_dirSlots.mp (mem_dirSlots_of_live hlive)).1
    refine h.frame lba (.inr (dataStart_le_of_mem_sectors hg hvol hmem))
      (fun hmem' => disjoint_sectors hg hvol h.onVolume hdisj hmem hmem') ?_
    rintro rfl
    exact disjoint_sectors hg hvol hvol'
      (hok.disjoint (.file t) (.dir c) ht hc nofun k kdir hk hkdir) hmem hslot
  · by_contra hnone
    push Not at hnone
    obtain ⟨hnotFat, hnotEntry, hnotFile⟩ := hnone
    refine hmod (h.frame lba (by omega) (fun hmem => ?_) hnotEntry)
    have hcl : (entryAt d s).firstCluster ≠ 0 := by
      intro hzero
      rw [h.none hzero] at hmem
      exact not_mem_nil hmem
    refine hnotFile l' ?_ hmem
    rw [h.entry.firstCluster]
    exact (h.chain hcl).1

end Touched

theorem Written.sameDirs (hs : m.FileSlot d s) (hcl : (entryAt d s).firstCluster ≠ 0)
    (hl : m.ClusterChain d (entryAt d s).firstCluster l)
    (h : m.Written d d' (entryAt d s).firstCluster l l') : m.SameDirs d d' :=
  (Finished.touched hg hok hs hcl hl ⟨d', h, .inl rfl⟩).sameDirs hg hok
end

variable (m) in
/-- Where the size is rewritten, it is in the entry of the file itself. -/
def OwnEntry (d : Disk) (path : Bytes) (s : Slot) (writeEnd : ℕ) : Prop :=
  (entryAt d s).fileSize < writeEnd →
    ∀ t, m.updateTarget d m.rootCluster path = some (some t) → t = s

variable (m) in
/-- A file without a first cluster either gets no byte within a cluster's length or meets a full
table; for the others the allocator stays on the volume. A write that finds enough clusters rewrites
no entry but the file's own. -/
def WritesInside (d : Disk) (path : Bytes) (s : Slot) (offset count writeEnd : ℕ) : Prop :=
  m.available = true →
    ((entryAt d s).firstCluster = 0 →
      (count = 0 ∨ m.clusterBytes ≤ offset ∧ fat32IsEndOfChain (m.readFatEntry d 0)) ∧
          writeEnd ≤ m.clusterBytes ∧ m.OwnEntry d path s writeEnd ∨
        m.clusterBytes < writeEnd ∧ fat32IsEndOfChain (m.readFatEntry d 0) ∧
          m.findFreeCluster d = none) ∧
    ((entryAt d s).firstCluster ≠ 0 → ∀ l, m.ClusterChain d (entryAt d s).firstCluster l →
      m.Room d l writeEnd ∧
        (writeEnd ≤ (l.length + (m.freeClusters d).card) * m.clusterBytes →
          m.OwnEntry d path s writeEnd))

theorem Grown.written {d₁ : Disk} {c : ℕ} (h : m.Grown d d₁ c l l') (offset : ℕ) (data : Bytes) :
    m.Written d ((m.sectors l').foldl writeSector ⟨d₁, offset, data⟩).disk c l l' :=
  ⟨d₁, h, fun _ hlba => foldl_writeSector_of_notMem _ hlba⟩

theorem Grown.length_le {d₁ : Disk} {c : ℕ} (h : m.Grown d d₁ c l l') :
    l'.length ≤ l.length + (m.freeClusters d).card := by
  have hsub : l'.toFinset ⊆ l.toFinset ∪ m.freeClusters d := by
    intro a ha
    rw [mem_toFinset] at ha
    by_cases hmem : a ∈ l
    · exact Finset.mem_union_left _ (mem_toFinset.mpr hmem)
    · exact Finset.mem_union_right _
        (Finset.mem_filter.mpr ⟨Finset.mem_Ico.mpr (h.onVolume a ha), h.free a ha hmem⟩)
  calc l'.length = l'.toFinset.card := (toFinset_card_of_nodup (Chain.nodup h.chain)).symm
    _ ≤ (l.toFinset ∪ m.freeClusters d).card := Finset.card_le_card hsub
    _ ≤ l.toFinset.card + (m.freeClusters d).card := Finset.card_union_le _ _
    _ ≤ l.length + (m.freeClusters d).card := Nat.add_le_add_right (toFinset_card_le l) _

theorem foldl_writeSector_skip (lbas : List ℕ) (st : WriteState)
    (h : 512 * lbas.length ≤ st.skip) : (lbas.foldl writeSector st).disk = st.disk := by
  induction lbas generalizing st with
  | nil => rfl
  | cons lba lbas ih =>
    rw [length_cons] at h
    rw [foldl_cons]
    by_cases hrest : st.rest = []
    · rw [writeSector_done hrest]
      exact ih st (by omega)
    · rw [writeSector_skip hrest (by omega)]
      exact ih _ (Nat.le_sub_of_add_le (by omega))

theorem writeClusters_nothing {offset : ℕ} {data : Bytes}
    (h : data.length = 0 ∨ m.clusterBytes ≤ offset ∧ fat32IsEndOfChain (m.readFatEntry d 0)) :
    ∃ st, m.writeClusters 0 offset data d = some st ∧ st.disk = d := by
  unfold writeClusters
  obtain ⟨n, hn⟩ : ∃ n, maxChain + offset + data.length = n + 1 + 1 :=
    ⟨maxChain - 2 + offset + data.length, by unfold maxChain; omega⟩
  rw [hn, walk, if_neg (by decide)]
  by_cases hdata : data = []
  · rw [if_pos hdata]
    exact ⟨_, rfl, rfl⟩
  · obtain ⟨hoff, hend⟩ := h.resolve_left fun hlen => hdata (length_eq_zero_iff.mp hlen)
    have hskip := foldl_writeSector_skip (m.lbas 0) ⟨d, offset, data⟩ (by
      unfold lbas clusterBytes at *
      simp only [length_map, length_range]
      omega)
    rw [if_neg hdata]
    dsimp only
    rw [hskip, walk, if_pos hend]
    exact ⟨_, rfl, hskip⟩

/-- The last step of a write stores the new size in the entry of the file, if at all. -/
theorem OwnEntry.exists_update {d₂ : Disk} {path : Bytes} {writeEnd : ℕ} (hg : m.Geometry)
    (hok : m.ChainsOk d) (hown : m.OwnEntry d path s writeEnd) (hsame : m.SameDirs d d₂) :
    ∃ d', (if (entryAt d s).fileSize < writeEnd then
        m.updateDirectoryEntry d₂ m.rootCluster path ((entryAt d s).withSize writeEnd)
      else some d₂) = some d' ∧
        (d' = d₂ ∨ ∃ n, d' = setEntry s ((entryAt d s).withSize n) d₂) := by
  split_ifs with hlonger
  · obtain ⟨k, hk, hlen⟩ := hok.dirsEnd hg _ .root
    unfold updateDirectoryEntry
    rw [hsame.updateTarget (hok.dirsEnd hg)]
    have htarget := hown hlonger
    rw [updateTarget_chain hk hlen] at htarget ⊢
    cases ht : (m.dirSlots k).find? (ShortNameIs d path ·) with
    | none => exact ⟨d₂, rfl, .inl rfl⟩
    | some t =>
      obtain rfl := htarget t (congrArg some ht)
      exact ⟨_, rfl, .inr ⟨_, rfl⟩⟩
  · exact ⟨d₂, rfl, .inl rfl⟩

theorem fat32Write_intact (m : Fat32Mount) (d : Disk) (path : Bytes) (offset : ℕ) (data : Bytes)
    (s : Slot) (hg : m.Geometry) (hok : m.ChainsOk d)
    (hfind : m.findRootEntry d path = some (some s)) (hfile : (entryAt d s).isDirectory = false)
    (hin : m.WritesInside d path s offset data.length ((offset + data.length) % 2 ^ 64)) :
    ∃ ret d', m.fat32Write path offset data d = some (ret, d') ∧ m.Intact d d' s := by
  by_cases havail : m.available = true
  swap
  · exact ⟨vfsEio, d, if_pos (by simpa using havail), .refl m hok s⟩
  have hs := fileSlot_of_find hg hok hfind hfile
  obtain ⟨hnone, hsome⟩ := hin havail
  by_cases hcl : (entryAt d s).firstCluster = 0
  · unfold fat32Write
    rw [if_neg (by simp [havail]), hfind]
    dsimp only [Option.bind_some]
    rw [if_neg (by simp [hfile]), hcl, expand]
    rcases hnone hcl with ⟨hnothing, hshort, hown⟩ | ⟨hlong, hend, hfull⟩
    · obtain ⟨st, hst, hdisk⟩ := writeClusters_nothing hnothing
      have hsame : m.SameDirs d d := fun _ _ _ _ => ⟨fun _ _ => rfl, fun _ _ => .inl rfl⟩
      obtain ⟨d', hd', htouched⟩ := hown.exists_update hg hok hsame
      rw [if_pos hshort]
      dsimp only [Option.bind_some]
      rw [hst]
      dsimp only [Option.bind_some]
      rw [hdisk, hd']
      refine ⟨_, d', rfl, ?_⟩
      rcases htouched with rfl | ⟨n, rfl⟩
      · exact .refl m hok s
      · exact (touched_setEntry hg hok hs hcl n).intact hg hok hs
    · rw [if_neg (by omega), if_pos hend, hfull]
      exact ⟨_, d, rfl, .refl m hok s⟩
  · obtain ⟨l, hl, hne, hvol⟩ := hok.chain (.file s) ⟨hs, hcl⟩
    obtain ⟨hroom, hown⟩ := hsome hcl l hl
    have hintact : ∀ {d' l'}, m.Finished d d' s l l' → m.Intact d d' s :=
      fun h => (h.touched hg hok hs hcl hl).intact hg hok hs
    obtain ⟨b, d₁, l', hgrown, henough, -, hrun⟩ :=
      exists_fat32Write hg havail hfind hfile hl hne hvol offset data hroom
    rw [hrun]
    cases b with
    | false => exact ⟨_, _, rfl, hintact ⟨d₁, ⟨d₁, hgrown, fun _ _ => rfl⟩, .inl rfl⟩⟩
    | true =>
      have hw := hgrown.written offset data
      have hlen := (henough rfl).trans (Nat.mul_le_mul_right m.clusterBytes hgrown.length_le)
      obtain ⟨d', hd', htouched⟩ :=
        (hown hlen).exists_update hg hok (hw.sameDirs hg hok hs hcl hl)
      dsimp only
      rw [hd']
      exact ⟨_, d', rfl, hintact ⟨_, hw, htouched⟩⟩

/-- One sector for the table, one sector a cluster, and 100 clusters. -/
def smallMount : Fat32Mount where
  partitionLba := 0
  rootCluster := 2
  sectorsPerCluster := 1
  reservedSectors := 1
  fatCount := 1
  fatSize := 1
  totalSectors := 102

/-- The entry of a file whose name and extension are given with their padding. -/
def fileEntry (name : Bytes) (first : UInt8) (size : UInt8) : Bytes :=
  name ++ [0x20, 0, 0, 0, 0, 0, 0, 0, 0, 0, 0, 0, 0, 0, 0, first, 0, size, 0, 0, 0]

/-- A disk with the given table in sector 1 and the given root directory in sector 2. -/
def smallDisk (fat : List ℕ) (root : Bytes) : Disk := fun lba i =>
  if lba = 1 then (fat.getD (i / 4) 0 / 2 ^ (8 * (i % 4))).toUInt8
  else if lba = 2 then root.getD i 0
  else 0

theorem smallMount_geometry : smallMount.Geometry :=
  ⟨by decide, by decide, by decide, by decide, by decide, by decide⟩

variable (m d) in
/-- The root directory lists one file with the clusters `l`, if it has any. -/
abbrev OneFile (root : List ℕ) (s : Slot) (l : List ℕ) : Prop :=
  (Chain (m.readFatEntry d) fat32IsEndOfChain m.rootCluster root ∧ root ≠ [] ∧
    ∀ a ∈ root, 2 ≤ a ∧ a < m.clusterCount + 2) ∧
  (liveSlots d (m.dirSlots root) = [s] ∧ (entryAt d s).isDirectory = false) ∧
  ((entryAt d s).firstCluster = 0 ∨
    Chain (m.readFatEntry d) fat32IsEndOfChain (entryAt d s).firstCluster l ∧
      (l ≠ [] ∧ ∀ a ∈ l, 2 ≤ a ∧ a < m.clusterCount + 2) ∧ ∀ a ∈ root, a ∉ l)

section
variable {root : List ℕ} (h : m.OneFile d root s l)

include h

theorem OneFile.dirHead {c : ℕ} (hc : m.DirHead d c) : c = m.rootCluster := by
  induction hc with
  | root => rfl
  | sub hc hl hs hdir hfirst ih =>
    subst ih
    obtain rfl := Chain.unique hl h.1.1
    rw [h.2.1.1, mem_singleton] at hs
    rw [hs, h.2.1.2] at hdir
    cases hdir

theorem OneFile.fileSlot {t : Slot} (ht : m.FileSlot d t) : t = s := by
  obtain ⟨c, k, hc, hk, hlive, -⟩ := ht
  obtain rfl := h.dirHead hc
  obtain rfl := Chain.unique hk h.1.1
  rwa [h.2.1.1, mem_singleton] at hlive

theorem OneFile.chainsOk : m.ChainsOk d := by
  have howner : ∀ o, m.Owns d o → o = .dir m.rootCluster ∨
      o = .file s ∧ (entryAt d s).firstCluster ≠ 0 := by
    intro o ho
    cases o with
    | dir c => exact .inl (congrArg Owner.dir (h.dirHead ho))
    | file t =>
      obtain rfl := h.fileSlot ho.1
      exact .inr ⟨rfl, ho.2⟩
  obtain ⟨⟨hroot, hrootVol⟩, -, hl⟩ := h
  constructor
  · intro o ho
    rcases howner o ho with rfl | ⟨rfl, hne⟩
    · exact ⟨root, hroot, hrootVol⟩
    · obtain ⟨hchain, hvol, -⟩ := hl.resolve_left hne
      exact ⟨l, hchain, hvol⟩
  · intro o o' ho ho' hne k k' hk hk'
    rcases howner o ho with rfl | ⟨rfl, hfirst⟩ <;> rcases howner o' ho' with rfl | ⟨rfl, hfirst⟩
    · exact absurd rfl hne
    · obtain ⟨hchain, -, hdisj⟩ := hl.resolve_left hfirst
      obtain rfl := Chain.unique hk hroot
      obtain rfl := Chain.unique hk' hchain
      exact hdisj
    · obtain ⟨hchain, -, hdisj⟩ := hl.resolve_left hfirst
      obtain rfl := Chain.unique hk hchain
      obtain rfl := Chain.unique hk' hroot
      exact List.Disjoint.symm hdisj
    · exact absurd rfl hne

end

def oneFileDisk : Disk :=
  smallDisk [0x0FFFFFF8, 0x0FFFFFFF, 0x0FFFFFFF, 0x0FFFFFFF] (fileEntry (bytes "A          ") 3 1)

theorem oneFile_oneFileDisk : smallMount.OneFile oneFileDisk [2] ⟨2, 0⟩ [3] := by
  decide

theorem chain_oneFileDisk : smallMount.ClusterChain oneFileDisk 3 [3] :=
  (oneFile_oneFileDisk.2.2.resolve_left (by decide)).1

theorem room_oneFileDisk (l : List ℕ)
    (hl : smallMount.ClusterChain oneFileDisk (entryAt oneFileDisk ⟨2, 0⟩).firstCluster l) :
    513 ≤ (l.length + (smallMount.freeClusters oneFileDisk).card) * smallMount.clusterBytes := by
  have hfree : 4 ∈ smallMount.freeClusters oneFileDisk :=
    Finset.mem_filter.mpr ⟨Finset.mem_Ico.mpr (by decide), by decide⟩
  have hpos := Finset.card_pos.mpr ⟨4, hfree⟩
  rw [Chain.unique hl chain_oneFileDisk, show smallMount.clusterBytes = 512 from rfl,
    length_singleton]
  omega

theorem ownEntry_oneFileDisk : smallMount.OwnEntry oneFileDisk (bytes "a") ⟨2, 0⟩ 513 := by
  intro _ t ht
  have hown : smallMount.updateTarget oneFileDisk 2 (bytes "a") = some (some ⟨2, 0⟩) := by
    decide
  exact Option.some.inj (Option.some.inj (ht.symm.trans hown))

def emptyFileDisk : Disk :=
  smallDisk [0x0FFFFFF8, 0x0FFFFFFF, 0x0FFFFFFF] (fileEntry (bytes "A          ") 0 0)

theorem oneFile_emptyFileDisk : smallMount.OneFile emptyFileDisk [2] ⟨2, 0⟩ [] := by
  decide

/-- The first write gives the file a second cluster, the second one leaves an empty file empty. -/
theorem writes_to_one_file_intact :
    (∃ ret d', smallMount.fat32Write (bytes "a") 511 [7, 8] oneFileDisk = some (ret, d') ∧
      smallMount.Intact oneFileDisk d' ⟨2, 0⟩) ∧
    ∃ ret d', smallMount.fat32Write (bytes "a") 0 [] emptyFileDisk = some (ret, d') ∧
      smallMount.Intact emptyFileDisk d' ⟨2, 0⟩ := by
  constructor
  · refine fat32Write_intact smallMount oneFileDisk (bytes "a") 511 [7, 8] ⟨2, 0⟩
      smallMount_geometry oneFile_oneFileDisk.chainsOk (by decide) (by decide) fun _ =>
        ⟨fun hzero => absurd hzero (by decide), fun _ l hl => ⟨.inr (room_oneFileDisk l hl), ?_⟩⟩
    exact fun _ => ownEntry_oneFileDisk
  · refine fat32Write_intact smallMount emptyFileDisk (bytes "a") 0 [] ⟨2, 0⟩
      smallMount_geometry oneFile_emptyFileDisk.chainsOk (by decide) (by decide) fun _ =>
        ⟨fun _ => .inl ⟨.inl rfl, by decide, ?_⟩, fun hfirst => absurd (by decide) hfirst⟩
    exact fun hlonger => absurd hlonger (by decide)

/-- A write behind the first cluster of an empty file links a cluster to entry 0 of the table. -/
theorem write_to_empty_file_changes_entry_zero :
    smallMount.Geometry ∧ smallMount.ChainsOk emptyFileDisk ∧
      smallMount.findRootEntry emptyFileDisk (bytes "a") = some (some ⟨2, 0⟩) ∧
      (entryAt emptyFileDisk ⟨2, 0⟩).isDirectory = false ∧
      ∃ d', smallMount.fat32Write (bytes "a") 512 [7] emptyFileDisk = some (1, d') ∧
        ¬ smallMount.Intact emptyFileDisk d' ⟨2, 0⟩ := by
  refine ⟨smallMount_geometry, oneFile_emptyFileDisk.chainsOk, by decide, by decide, ?_⟩
  have hwrite : ((smallMount.fat32Write (bytes "a") 512 [7] emptyFileDisk).map fun r =>
      (r.1, smallMount.readFatEntry r.2 0)) = some (1, 3) := by
    decide
  obtain ⟨⟨ret, d'⟩, hrun, hr⟩ := Option.map_eq_some_iff.mp hwrite
  obtain ⟨rfl, hentry⟩ := Prod.mk.inj hr
  refine ⟨d', hrun, fun hintact => ?_⟩
  have hkept := hintact.reserved.1
  rw [hentry] at hkept
  exact absurd hkept (by decide)

end Fat32Mount
end SageOS
