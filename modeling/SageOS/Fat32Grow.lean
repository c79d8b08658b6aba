import SageOS.Fat32Lookup

/-!
# Cluster chains and their growth

Every directory and every file that has a cluster owns a chain. On a sound volume the chains end,
consist of clusters of the volume and have no cluster in common. Linking a free cluster to the end
of one chain changes no other. Before a write the chain of the file is made long enough. The
allocator takes the lowest free entry of the table, also one that stands for no cluster of the
volume. It stays on the volume as long as the volume has a free cluster, or when the rest of the
table is in use.
-/
namespace SageOS
open LinkedChain List

inductive Owner
  | dir (cluster : ℕ)
  | file (s : Slot)

def Owner.head (d : Disk) : Owner → ℕ
  | .dir c => c
  | .file s => (entryAt d s).firstCluster

namespace Fat32Mount
variable (m : Fat32Mount)

def Owns (d : Disk) : Owner → Prop
  | .dir c => m.DirHead d c
  | .file s => m.FileSlot d s ∧ (entryAt d s).firstCluster ≠ 0

structure ChainsOk (d : Disk) : Prop where
  chain : ∀ o, m.Owns d o →
    ∃ l, m.ClusterChain d (o.head d) l ∧ l ≠ [] ∧ ∀ c ∈ l, m.OnVolume c
  disjoint : ∀ o o', m.Owns d o → m.Owns d o' → o ≠ o' → ∀ l l',
    m.ClusterChain d (o.head d) l → m.ClusterChain d (o'.head d) l' → l.Disjoint l'

/-- The chain `l` from `c` on has become `l'` by linking free clusters to its end. -/
structure Grown (d d' : Disk) (c : ℕ) (l l' : List ℕ) : Prop where
  frame : ∀ lba, lba < m.fatStart ∨ m.dataStart ≤ lba → d' lba = d lba
  chain : m.ClusterChain d' c l'
  isPrefix : l <+: l'
  onVolume : ∀ a ∈ l', m.OnVolume a
  free : ∀ a ∈ l', a ∉ l → m.readFatEntry d a = 0
  fat : ∀ a < m.fatSize * 128, a ∉ l' → m.readFatEntry d' a = m.readFatEntry d a

def freeClusters (d : Disk) : Finset ℕ :=
  (Finset.Ico 2 (m.clusterCount + 2)).filter fun c => m.readFatEntry d c = 0

/-- The entries of the table that stand for no cluster are in use. -/
def TailUsed (d : Disk) : Prop :=
  ∀ c, m.clusterCount + 2 ≤ c → c < m.fatSize * 128 → m.readFatEntry d c ≠ 0

variable {m} {d d' d'' : Disk} {c : ℕ} {l l' l'' : List ℕ}

theorem readFatEntry_ne_zero (hl : m.ClusterChain d c l) (hvol : ∀ a ∈ l, m.OnVolume a) {a : ℕ}
    (ha : a ∈ l) : m.readFatEntry d a ≠ 0 := by
  intro hzero
  rcases Chain.next_mem_or_stop hl ha with hmem | hstop
  · have h2 := (hvol _ hmem).1
    omega
  · unfold fat32IsEndOfChain at hstop
    omega

theorem length_lt_maxChain (hg : m.Geometry) (hl : m.ClusterChain d c l)
    (hvol : ∀ a ∈ l, m.OnVolume a) : l.length < maxChain := by
  have hsub : l ⊆ range (m.clusterCount + 2) := fun a ha => mem_range.mpr (hvol a ha).2
  have hle := (subperm_of_subset (Chain.nodup hl) hsub).length_le
  have hcount := hg.clusters_le
  rw [length_range] at hle
  unfold maxChain
  omega

theorem ChainsOk.dirsEnd (hg : m.Geometry) (h : m.ChainsOk d) : m.DirsEnd d := by
  intro c hc
  obtain ⟨l, hl, -, hvol⟩ := h.chain (.dir c) hc
  exact ⟨l, hl, length_lt_maxChain hg hl hvol⟩

namespace Grown

theorem refl (hl : m.ClusterChain d c l) (hvol : ∀ a ∈ l, m.OnVolume a) : m.Grown d d c l l where
  frame _ _ := rfl
  chain := hl
  isPrefix := prefix_rfl
  onVolume := hvol
  free _ ha hnot := absurd ha hnot
  fat _ _ _ := rfl

theorem trans (hg : m.Geometry) (h : m.Grown d d' c l l') (h' : m.Grown d' d'' c l' l'') :
    m.Grown d d'' c l l'' where
  frame lba hlba := (h'.frame lba hlba).trans (h.frame lba hlba)
  chain := h'.chain
  isPrefix := h.isPrefix.trans h'.isPrefix
  onVolume := h'.onVolume
  free a ha hnot := by
    by_cases hmem : a ∈ l'
    · exact h.free a hmem hnot
    · rw [← h.fat a ((h'.onVolume a ha).lt_fat hg) hmem]
      exact h'.free a ha hmem
  fat a ha hnot :=
    (h'.fat a ha hnot).trans (h.fat a ha fun hmem => hnot (h'.isPrefix.subset hmem))

theorem link (hg : m.Geometry) {pre : List ℕ} {last new : ℕ}
    (hl : m.ClusterChain d c (pre ++ [last])) (hvol : ∀ a ∈ pre ++ [last], m.OnVolume a)
    (hnew : m.OnVolume new) (hfree : m.readFatEntry d new = 0) :
    m.Grown d (m.writeFatEntry new 0x0FFFFFFF (m.writeFatEntry last new d)) c (pre ++ [last])
      (pre ++ [last, new]) := by
  have hlast : m.OnVolume last := hvol last (by simp)
  have hnew_lt := hnew.lt_fat hg
  have hlast_lt := hlast.lt_fat hg
  have hnotMem : new ∉ pre ++ [last] := fun hmem => readFatEntry_ne_zero hl hvol hmem hfree
  have hread : ∀ a < m.fatSize * 128,
      m.readFatEntry (m.writeFatEntry new 0x0FFFFFFF (m.writeFatEntry last new d)) a =
        if a = new then 0x0FFFFFFF else if a = last then new else m.readFatEntry d a := by
    intro a ha
    have hlt := hnew.2
    have hle := hg.clusters_le
    rw [readFatEntry_writeFatEntry hg _ _ hnew_lt ha, readFatEntry_writeFatEntry hg _ _ hlast_lt ha,
      Nat.mod_eq_of_lt (show new < 2 ^ 28 by omega), Nat.mod_eq_of_lt (by omega)]
  have hpre : ∀ a ∈ pre, a ≠ new ∧ a ≠ last := by
    intro a ha
    refine ⟨fun heq => hnotMem (by simp [← heq, ha]), fun heq => ?_⟩
    have hdup := (nodup_append.mp (Chain.nodup hl)).2.2 a ha last (by simp)
    exact hdup heq
  refine ⟨?_, ?_, ?_, ?_, ?_, ?_⟩
  · intro lba hlba
    rw [writeFatEntry_of_ne hg _ _ hnew_lt hlba, writeFatEntry_of_ne hg _ _ hlast_lt hlba]
  · refine Chain.extend hl (hnew.not_end hg) (fun a ha => ?_) ?_ ?_
    · rw [hread a ((hvol a (by simp [ha])).lt_fat hg), if_neg (hpre a ha).1, if_neg (hpre a ha).2]
    · rw [hread last hlast_lt, if_neg fun heq => hnotMem (by simp [heq]), if_pos rfl]
    · rw [hread new hnew_lt, if_pos rfl]
      unfold fat32IsEndOfChain
      omega
  · exact ⟨[new], by simp⟩
  · intro a ha
    rcases mem_append.mp (show a ∈ (pre ++ [last]) ++ [new] by simpa using ha) with hold | hone
    · exact hvol a hold
    · rw [mem_singleton.mp hone]
      exact hnew
  · intro a ha hnot
    rcases mem_append.mp (show a ∈ (pre ++ [last]) ++ [new] by simpa using ha) with hold | hone
    · exact absurd hold hnot
    · rw [mem_singleton.mp hone]
      exact hfree
  · intro a ha hnot
    rw [hread a ha, if_neg fun heq => hnot (by simp [heq]), if_neg fun heq => hnot (by simp [heq])]

theorem disjoint (h : m.Grown d d' c l l') {b : ℕ} {k : List ℕ} (hk : m.ClusterChain d b k)
    (hvol : ∀ a ∈ k, m.OnVolume a) (hdisj : k.Disjoint l) : k.Disjoint l' := by
  intro a hak hal'
  by_cases hal : a ∈ l
  · exact hdisj hak hal
  · exact readFatEntry_ne_zero hk hvol hak (h.free a hal' hal)

theorem freeClusters_card (hg : m.Geometry) {new : ℕ} (h : m.Grown d d' c l (l ++ [new]))
    (hnew : m.readFatEntry d new = 0) (hl : m.ClusterChain d c l) :
    (m.freeClusters d').card + 1 = (m.freeClusters d).card := by
  have hvol := h.onVolume new (by simp)
  have hmem : new ∈ m.freeClusters d :=
    Finset.mem_filter.mpr ⟨Finset.mem_Ico.mpr hvol, hnew⟩
  have herase : m.freeClusters d' = (m.freeClusters d).erase new := by
    ext a
    unfold freeClusters
    rw [Finset.mem_erase, Finset.mem_filter, Finset.mem_filter, Finset.mem_Ico]
    constructor
    · rintro ⟨hrange, hzero⟩
      have hnot : a ∉ l ++ [new] := fun ha => readFatEntry_ne_zero h.chain h.onVolume ha hzero
      refine ⟨fun heq => hnot (by simp [heq]), hrange, ?_⟩
      rw [← h.fat a (hrange.2.trans_le hg.covers) hnot]
      exact hzero
    · rintro ⟨hne, hrange, hzero⟩
      refine ⟨hrange, ?_⟩
      rw [h.fat a (hrange.2.trans_le hg.covers), hzero]
      intro ha
      rcases mem_append.mp ha with hold | hone
      · exact readFatEntry_ne_zero hl (fun b hb => h.onVolume b (by simp [hb])) hold hzero
      · exact hne (mem_singleton.mp hone)
  have hpos := Finset.card_pos.mpr ⟨new, hmem⟩
  rw [herase, Finset.card_erase_of_mem hmem]
  omega

end Grown
end Fat32Mount

namespace Fat32Mount
variable (m : Fat32Mount)

/-- The allocator stays on the volume when the chain `l` is made long enough for `writeEnd`. -/
def Room (d : Disk) (l : List ℕ) (writeEnd : ℕ) : Prop :=
  m.TailUsed d ∨ writeEnd ≤ (l.length + (m.freeClusters d).card) * m.clusterBytes

variable {m} {d d' : Disk} {c : ℕ} {l : List ℕ}

theorem Geometry.clusterBytes_pos (hg : m.Geometry) : 0 < m.clusterBytes :=
  Nat.mul_pos hg.spc_pos (by decide)

theorem exists_free {writeEnd : ℕ} (hlong : l.length * m.clusterBytes < writeEnd)
    (hroom : writeEnd ≤ (l.length + (m.freeClusters d).card) * m.clusterBytes) :
    ∃ a, m.OnVolume a ∧ m.readFatEntry d a = 0 := by
  have hpos : 0 < (m.freeClusters d).card := by
    by_contra hzero
    rw [Nat.eq_zero_of_not_pos hzero, Nat.add_zero] at hroom
    omega
  obtain ⟨a, ha⟩ := Finset.card_pos.mp hpos
  obtain ⟨hrange, hzero⟩ := Finset.mem_filter.mp ha
  exact ⟨a, Finset.mem_Ico.mp hrange, hzero⟩

theorem Room.onVolume (hg : m.Geometry) {writeEnd new : ℕ} (hroom : m.Room d l writeEnd)
    (hlong : l.length * m.clusterBytes < writeEnd) (hnew : m.findFreeCluster d = some new) :
    m.OnVolume new := by
  obtain ⟨h2, hlt, hzero, hfirst⟩ := of_findFreeCluster hg hnew
  refine ⟨h2, ?_⟩
  by_contra hout
  rcases hroom with htail | henough
  · exact htail new (by omega) hlt hzero
  · obtain ⟨a, ha, hfree⟩ := exists_free hlong henough
    exact hfirst a ha.1 (by have := ha.2; omega) hfree

theorem Room.link (hg : m.Geometry) {writeEnd new : ℕ} (hroom : m.Room d l writeEnd)
    (hl : m.ClusterChain d c l) (hgrown : m.Grown d d' c l (l ++ [new]))
    (hfree : m.readFatEntry d new = 0) : m.Room d' (l ++ [new]) writeEnd := by
  rcases hroom with htail | henough
  · refine .inl fun a hout hlt => ?_
    rw [hgrown.fat a hlt fun hmem => absurd (hgrown.onVolume a hmem).2 (by omega)]
    exact htail a hout hlt
  · refine .inr ?_
    have hcard := hgrown.freeClusters_card hg hfree hl
    rw [length_append, length_singleton,
      show l.length + 1 + (m.freeClusters d').card = l.length + (m.freeClusters d).card by omega]
    exact henough

theorem exists_expand (hg : m.Geometry) {n current writeEnd : ℕ} {pre post : List ℕ}
    (hl : m.ClusterChain d c (pre ++ current :: post))
    (hvol : ∀ a ∈ pre ++ current :: post, m.OnVolume a) (hn : writeEnd < n)
    (hroom : m.Room d (pre ++ current :: post) (pre.length * m.clusterBytes + writeEnd)) :
    ∃ b d' l', m.expand n current writeEnd d = some (b, d') ∧
      m.Grown d d' c (pre ++ current :: post) l' ∧
      (b = true → pre.length * m.clusterBytes + writeEnd ≤ l'.length * m.clusterBytes) ∧
      (pre.length * m.clusterBytes + writeEnd ≤
        ((pre ++ current :: post).length + (m.freeClusters d).card) * m.clusterBytes →
          b = true) := by
  induction n generalizing current writeEnd d pre post with
  | zero => exact absurd hn (Nat.not_lt_zero _)
  | succ n ih =>
    have hcb := hg.clusterBytes_pos
    have hlen : (pre ++ current :: post).length = pre.length + 1 + post.length := by
      rw [length_append, length_cons]
      omega
    unfold expand
    by_cases hdone : writeEnd ≤ m.clusterBytes
    · rw [if_pos hdone]
      refine ⟨true, d, _, rfl, .refl hl hvol, fun _ => ?_, fun _ => rfl⟩
      rw [hlen, Nat.add_mul, Nat.add_mul]
      omega
    have hnext : (pre ++ [current]).length * m.clusterBytes + (writeEnd - m.clusterBytes) =
        pre.length * m.clusterBytes + writeEnd := by
      rw [length_append, length_singleton, Nat.add_mul]
      omega
    obtain ⟨-, -, hpost⟩ := Chain.of_append hl
    rw [if_neg hdone]
    cases post with
    | cons b post =>
      obtain ⟨rfl, hstop, -⟩ := hpost
      have hsplit : pre ++ current :: m.readFatEntry d current :: post =
          (pre ++ [current]) ++ m.readFatEntry d current :: post := by simp
      rw [if_neg hstop]
      rw [hsplit] at hl hvol hroom ⊢
      rw [← hnext] at hroom ⊢
      exact ih hl hvol (by omega) hroom
    | nil =>
      have hlong : (pre ++ [current]).length * m.clusterBytes <
          pre.length * m.clusterBytes + writeEnd := by
        omega
      rw [if_pos (show fat32IsEndOfChain (m.readFatEntry d current) from hpost)]
      cases hfind : m.findFreeCluster d with
      | none =>
        refine ⟨false, d, _, rfl, .refl hl hvol, nofun, fun henough => ?_⟩
        obtain ⟨a, ha, hfree⟩ := exists_free hlong henough
        exact absurd hfree (of_findFreeCluster_eq_none hg hfind ha.1 (ha.lt_fat hg))
      | some new =>
        have hnew := hroom.onVolume hg hlong hfind
        obtain ⟨-, -, hfree, -⟩ := of_findFreeCluster hg hfind
        have hgrown := Grown.link hg hl hvol hnew hfree
        have hsplit : pre ++ [current, new] = (pre ++ [current]) ++ [new] := by simp
        rw [hsplit] at hgrown
        have hroom' := hroom.link hg hl hgrown hfree
        have hcard := hgrown.freeClusters_card hg hfree hl
        rw [← hnext] at hroom'
        obtain ⟨b, d'', l', hrun, hrest, hlast, henough⟩ :=
          ih hgrown.chain hgrown.onVolume (by omega) hroom'
        rw [hnext] at hlast henough
        refine ⟨b, d'', l', hrun, hgrown.trans hg hrest, hlast, fun h => henough ?_⟩
        rw [length_append, length_singleton, show (pre ++ [current]).length + 1 +
          (m.freeClusters (m.writeFatEntry new 0x0FFFFFFF (m.writeFatEntry current new d))).card =
          (pre ++ [current]).length + (m.freeClusters d).card by omega]
        exact h

end Fat32Mount
end SageOS
