import SageOS.Fat32Sectors

/-!
# What a write leaves alone

`Written` describes the disk after the chain of a file has been made longer and data has gone into
its sectors: all other chains and their sectors are as before. `Finished` allows in addition a new
size in the file's own directory entry. The directory tree stays the same up to that size.
-/
namespace SageOS
open LinkedChain List Function
namespace Fat32Mount
variable (m : Fat32Mount)

/-- The chain of a file has become `l'`, and apart from that only its sectors have changed. -/
def Written (d d' : Disk) (c : ℕ) (l l' : List ℕ) : Prop :=
  ∃ d₁, m.Grown d d₁ c l l' ∧ ∀ lba, lba ∉ m.sectors l' → d' lba = d₁ lba

/-- In addition the file's entry may have a new size. -/
def Finished (d d' : Disk) (s : Slot) (l l' : List ℕ) : Prop :=
  ∃ d₂, m.Written d d₂ (entryAt d s).firstCluster l l' ∧
    (d' = d₂ ∨ ∃ n, d' = setEntry s ((entryAt d s).withSize n) d₂)

variable {m} {d d' d₂ : Disk} {c : ℕ} {l l' : List ℕ} {s : Slot}
namespace Written

theorem frame (h : m.Written d d' c l l') {lba : ℕ} (hfat : lba < m.fatStart ∨ m.dataStart ≤ lba)
    (hlba : lba ∉ m.sectors l') : d' lba = d lba := by
  obtain ⟨d₁, hgrown, hrest⟩ := h
  rw [hrest lba hlba, hgrown.frame lba hfat]

theorem onVolume (h : m.Written d d' c l l') : ∀ a ∈ l', m.OnVolume a := by
  obtain ⟨d₁, hgrown, -⟩ := h
  exact hgrown.onVolume

theorem readFatEntry_mid (hg : m.Geometry) {d₁ : Disk} (hvol : ∀ a ∈ l', m.OnVolume a)
    (hrest : ∀ lba, lba ∉ m.sectors l' → d' lba = d₁ lba) {a : ℕ} (ha : a < m.fatSize * 128) :
    m.readFatEntry d' a = m.readFatEntry d₁ a := by
  refine readFatEntry_congr hg (fun lba _ hlt => hrest lba fun hmem => ?_) ha
  have hge := dataStart_le_of_mem_sectors hg hvol hmem
  omega

theorem fat (hg : m.Geometry) (h : m.Written d d' c l l') {a : ℕ} (ha : a < m.fatSize * 128)
    (hnot : a ∉ l') : m.readFatEntry d' a = m.readFatEntry d a := by
  obtain ⟨d₁, hgrown, hrest⟩ := h
  rw [readFatEntry_mid hg hgrown.onVolume hrest ha, hgrown.fat a ha hnot]

theorem chain (hg : m.Geometry) (h : m.Written d d' c l l') : m.ClusterChain d' c l' := by
  obtain ⟨d₁, hgrown, hrest⟩ := h
  exact Chain.congr hgrown.chain fun a ha =>
    readFatEntry_mid hg hgrown.onVolume hrest ((hgrown.onVolume a ha).lt_fat hg)

theorem disjoint (h : m.Written d d' c l l') {b : ℕ} {k : List ℕ} (hk : m.ClusterChain d b k)
    (hvol : ∀ a ∈ k, m.OnVolume a) (hdisj : k.Disjoint l) : k.Disjoint l' := by
  obtain ⟨d₁, hgrown, -⟩ := h
  exact hgrown.disjoint hk hvol hdisj

end Written

variable {t : Slot}

theorem mem_slots : t ∈ m.slots c ↔ t.lba ∈ m.lbas c ∧ ∃ k < 16, t.offset = 32 * k := by
  unfold slots
  rw [mem_flatMap]
  constructor
  · rintro ⟨lba, hlba, ht⟩
    obtain ⟨k, hk, rfl⟩ := mem_map.mp ht
    exact ⟨hlba, k, mem_range.mp hk, rfl⟩
  · rintro ⟨hlba, k, hk, hoff⟩
    refine ⟨t.lba, hlba, mem_map.mpr ⟨k, mem_range.mpr hk, ?_⟩⟩
    rw [← hoff]

theorem mem_dirSlots : t ∈ m.dirSlots l ↔ t.lba ∈ m.sectors l ∧ ∃ k < 16, t.offset = 32 * k := by
  unfold dirSlots
  rw [mem_flatMap, mem_sectors]
  constructor
  · rintro ⟨a, ha, ht⟩
    obtain ⟨hlba, hoff⟩ := mem_slots.mp ht
    exact ⟨⟨a, ha, hlba⟩, hoff⟩
  · rintro ⟨⟨a, ha, hlba⟩, hoff⟩
    exact ⟨a, ha, mem_slots.mpr ⟨hlba, hoff⟩⟩

theorem mem_dirSlots_of_live (h : t ∈ liveSlots d (m.dirSlots l)) : t ∈ m.dirSlots l :=
  (List.takeWhile_prefix _).subset (mem_of_mem_filter h)

theorem entryAt_setEntry (s : Slot) (e : DirEntry) (d : Disk) : entryAt (setEntry s e d) s = e := by
  funext i
  unfold entryAt setEntry
  rw [update_self, dif_pos (by omega)]
  congr 1
  ext
  dsimp only
  omega

theorem entryAt_setEntry_of_ne (hne : t ≠ s) (hs : ∃ k < 16, s.offset = 32 * k)
    (ht : ∃ k < 16, t.offset = 32 * k) (e : DirEntry) (d : Disk) :
    entryAt (setEntry s e d) t = entryAt d t := by
  funext i
  unfold entryAt setEntry
  by_cases hlba : t.lba = s.lba
  · have hoff : t.offset ≠ s.offset := fun hoff => hne (by cases t; cases s; simp_all)
    rw [hlba, update_self, dif_neg (by omega)]
  · rw [update_of_ne hlba]

theorem setEntry_of_ne {lba : ℕ} (h : lba ≠ s.lba) (e : DirEntry) (d : Disk) :
    setEntry s e d lba = d lba := update_of_ne h _ _

section
variable (hg : m.Geometry) (hok : m.ChainsOk d) (hs : m.FileSlot d s)
  (hcl : (entryAt d s).firstCluster ≠ 0) (hl : m.ClusterChain d (entryAt d s).firstCluster l)

include hg hok hs hcl hl

omit hg in
theorem Written.disjoint_owner (h : m.Written d d₂ (entryAt d s).firstCluster l l') {o : Owner}
    (ho : m.Owns d o) (hne : o ≠ .file s) {k : List ℕ} (hk : m.ClusterChain d (o.head d) k) :
    (∀ a ∈ k, m.OnVolume a) ∧ k.Disjoint l' := by
  obtain ⟨k', hk', -, hvol⟩ := hok.chain o ho
  obtain rfl := Chain.unique hk hk'
  exact ⟨hvol, h.disjoint hk hvol (hok.disjoint o (.file s) ho ⟨hs, hcl⟩ hne k l hk hl)⟩

theorem Written.slot (h : m.Written d d₂ (entryAt d s).firstCluster l l') :
    m.dataStart ≤ s.lba ∧ s.lba ∉ m.sectors l' ∧ (∃ k < 16, s.offset = 32 * k) ∧
      (entryAt d s).attr ≠ 0x0F ∧ entryAt d₂ s = entryAt d s ∧
      ∃ c k, m.DirHead d c ∧ m.ClusterChain d c k ∧ s.lba ∈ m.sectors k := by
  obtain ⟨c, k, hc, hk, hlive, -⟩ := id hs
  obtain ⟨hvol, hdisj⟩ := h.disjoint_owner hok hs hcl hl (o := .dir c) hc nofun hk
  obtain ⟨hlba, hoff⟩ := mem_dirSlots.mp (mem_dirSlots_of_live hlive)
  have hkind := of_decide_eq_true (mem_filter.mp hlive).2
  have hdata := dataStart_le_of_mem_sectors hg hvol hlba
  have hnot := fun hmem => disjoint_sectors hg hvol h.onVolume hdisj hlba hmem
  refine ⟨hdata, hnot, hoff, hkind.2, ?_, c, k, hc, hk, hlba⟩
  funext i
  unfold entryAt
  rw [h.frame (.inr hdata) hnot]

end

theorem fileSlot_of_find (hg : m.Geometry) (hok : m.ChainsOk d) {path : Bytes}
    (hfind : m.findRootEntry d path = some (some s)) (hfile : (entryAt d s).isDirectory = false) :
    m.FileSlot d s := by
  obtain ⟨c, k, hc, hk, hlive⟩ := exists_of_findRootEntry (hok.dirsEnd hg) hfind
  exact ⟨c, k, hc, hk, hlive, hfile⟩

theorem exists_fat32Write (hg : m.Geometry) (havail : m.available = true) {path : Bytes}
    (hfind : m.findRootEntry d path = some (some s)) (hfile : (entryAt d s).isDirectory = false)
    (hl : m.ClusterChain d (entryAt d s).firstCluster l) (hne : l ≠ [])
    (hvol : ∀ a ∈ l, m.OnVolume a) (offset : ℕ) (data : Bytes)
    (hroom : m.Room d l ((offset + data.length) % 2 ^ 64)) :
    ∃ b d₁ l', m.Grown d d₁ (entryAt d s).firstCluster l l' ∧
      (b = true → (offset + data.length) % 2 ^ 64 ≤ l'.length * m.clusterBytes) ∧
      ((offset + data.length) % 2 ^ 64 ≤
        (l.length + (m.freeClusters d).card) * m.clusterBytes → b = true) ∧
      m.fat32Write path offset data d = match b with
        | false => some (vfsENOSPC, d₁)
        | true =>
          (if (entryAt d s).fileSize < (offset + data.length) % 2 ^ 64 then
            m.updateDirectoryEntry ((m.sectors l').foldl writeSector ⟨d₁, offset, data⟩).disk
              m.rootCluster path ((entryAt d s).withSize ((offset + data.length) % 2 ^ 64))
          else some ((m.sectors l').foldl writeSector ⟨d₁, offset, data⟩).disk).map fun d₂ =>
            (toCInt (data.length -
              ((m.sectors l').foldl writeSector ⟨d₁, offset, data⟩).rest.length), d₂) := by
  cases l with
  | nil => exact absurd rfl hne
  | cons a l =>
    have hroom' : m.Room d ([] ++ a :: l)
        (([] : List ℕ).length * m.clusterBytes + (offset + data.length) % 2 ^ 64) := by
      simpa using hroom
    have hl' : m.ClusterChain d (entryAt d s).firstCluster ([] ++ a :: l) := hl
    obtain rfl := hl.1
    obtain ⟨b, d₁, l', hrun, hgrown, hlong, henough⟩ :=
      exists_expand hg hl' hvol (Nat.lt_succ_self _) hroom'
    rw [length_nil, Nat.zero_mul, Nat.zero_add] at hlong henough
    refine ⟨b, d₁, l', hgrown, hlong, henough, ?_⟩
    unfold fat32Write
    rw [if_neg (by simp [havail]), hfind]
    dsimp only [Option.bind_some]
    rw [if_neg (by simp [hfile]), hrun]
    cases b with
    | false => rfl
    | true =>
      dsimp only [Option.bind_some]
      rw [writeClusters_run hg hgrown.chain hgrown.onVolume]
      rfl

end Fat32Mount
end SageOS
