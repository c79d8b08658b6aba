import SageOS.Fat32Content
import SageOS.Fat32Grow

/-!
# Reading and writing along a chain

On a chain of clusters of the volume the loops over clusters and sectors are folds over the sectors
of the chain. So a read gives a slice of the bytes of the chain, and a write puts its data over
them.
-/
namespace SageOS.Fat32Mount
open LinkedChain List Option
variable (m : Fat32Mount)

def sectors (l : List ℕ) : List ℕ := l.flatMap m.lbas

variable {m} {d : Disk} {c : ℕ} {l : List ℕ}

theorem mem_sectors {lba : ℕ} : lba ∈ m.sectors l ↔ ∃ a ∈ l, lba ∈ m.lbas a := mem_flatMap

theorem sectors_cons (a : ℕ) (l : List ℕ) : m.sectors (a :: l) = m.lbas a ++ m.sectors l :=
  flatMap_cons

theorem sectors_append (l l' : List ℕ) : m.sectors (l ++ l') = m.sectors l ++ m.sectors l' :=
  flatMap_append

theorem dataStart_le_of_mem_sectors (hg : m.Geometry) (hvol : ∀ a ∈ l, m.OnVolume a) {lba : ℕ}
    (h : lba ∈ m.sectors l) : m.dataStart ≤ lba := by
  obtain ⟨a, ha, hlba⟩ := mem_sectors.mp h
  exact dataStart_le_of_mem_lbas hg (hvol a ha) hlba

theorem disjoint_sectors (hg : m.Geometry) {l' : List ℕ} (hvol : ∀ a ∈ l, m.OnVolume a)
    (hvol' : ∀ a ∈ l', m.OnVolume a) (h : l.Disjoint l') :
    (m.sectors l).Disjoint (m.sectors l') := by
  intro lba hlba hlba'
  obtain ⟨a, ha, hmem⟩ := mem_sectors.mp hlba
  obtain ⟨a', ha', hmem'⟩ := mem_sectors.mp hlba'
  obtain rfl := eq_of_mem_lbas hg (hvol a ha) (hvol' a' ha') hmem hmem'
  exact h ha ha'

theorem nodup_sectors (hg : m.Geometry) (hl : l.Nodup) (hvol : ∀ a ∈ l, m.OnVolume a) :
    (m.sectors l).Nodup := by
  induction l with
  | nil => exact nodup_nil
  | cons a l ih =>
    obtain ⟨hnot, hl⟩ := nodup_cons.mp hl
    have hvol' := fun b hb => hvol b (mem_cons_of_mem a hb)
    refine List.Nodup.append (nodup_lbas hg (hvol a mem_cons_self)) (ih hl hvol') ?_
    intro lba ha hrest
    obtain ⟨b, hb, hmem⟩ := mem_sectors.mp hrest
    obtain rfl := eq_of_mem_lbas hg (hvol a mem_cons_self) (hvol' b hb) ha hmem
    exact hnot hb

theorem length_content_sectors (d : Disk) (l : List ℕ) :
    (content d (m.sectors l)).length = l.length * m.clusterBytes := by
  induction l with
  | nil => simp [sectors, content]
  | cons a l ih =>
    rw [sectors_cons, content_append, length_append, ih, length_content, length_cons,
      Nat.add_mul, Nat.one_mul, Nat.add_comm]
    unfold lbas clusterBytes
    rw [length_map, length_range, Nat.mul_comm 512]

theorem foldl_lbas {σ : Type} (f : σ → ℕ → σ) (l : List ℕ) (s : σ) :
    l.foldl (fun s a => (m.lbas a).foldl f s) s = (m.sectors l).foldl f s := by
  induction l generalizing s with
  | nil => rfl
  | cons a l ih => rw [foldl_cons, sectors_cons, foldl_append, ih]

theorem foldl_of_fixed {σ α : Type} {f : σ → α → σ} {s : σ} (h : ∀ a, f s a = s) (l : List α) :
    l.foldl f s = s := by
  induction l with
  | nil => rfl
  | cons a l ih => rw [foldl_cons, h, ih]

theorem writeClusters_run (hg : m.Geometry) (hl : m.ClusterChain d c l)
    (hvol : ∀ a ∈ l, m.OnVolume a) (offset : ℕ) (data : Bytes) :
    m.writeClusters c offset data d = some ((m.sectors l).foldl writeSector ⟨d, offset, data⟩) := by
  have hlen := length_lt_maxChain hg hl hvol
  let inv : WriteState → Prop := fun st => ∀ lba < m.dataStart, st.disk lba = d lba
  have hread : ∀ st, inv st → ∀ a ∈ l, m.readFatEntry st.disk a = m.readFatEntry d a :=
    fun st hst a ha =>
      readFatEntry_congr hg (fun lba _ hlt => hst lba hlt) ((hvol a ha).lt_fat hg)
  have hbody : ∀ st, inv st → ∀ a ∈ l, ∀ st',
      (if st.rest = [] then .error st else .ok ((m.lbas a).foldl writeSector st) :
        Except WriteState WriteState) = .ok st' → inv st' := by
    intro st hst a ha st' hst' lba hlt
    split_ifs at hst'
    obtain rfl := Except.ok.inj hst'
    rw [foldl_writeSector_of_notMem st fun hmem => ?_, hst lba hlt]
    have hge := dataStart_le_of_mem_lbas hg (hvol a ha) hmem
    omega
  unfold writeClusters
  rw [walk_chain (I := inv) hl (by omega) (fun _ _ => rfl) hread hbody, map_some,
    final_foldlM (fun st a hdone => foldl_of_fixed (writeSector_done hdone) _), foldl_lbas]

theorem readClusters_run (hg : m.Geometry) (hl : m.ClusterChain d c l)
    (hvol : ∀ a ∈ l, m.OnVolume a) (size skip : ℕ) :
    m.readClusters d size c skip = some (((content d (m.sectors l)).drop skip).take size) := by
  have hlen := length_lt_maxChain hg hl hvol
  have hdone : ∀ (st : ReadState) (a : ℕ), size ≤ st.out.length →
      (m.lbas a).foldl (readSector d size) st = st :=
    fun st a h => foldl_of_fixed (fun lba => show readSector d size st lba = st from if_pos h) _
  unfold readClusters
  rw [walk_chain (I := fun _ => True) hl hlen trivial (fun _ _ _ _ => rfl)
    (fun _ _ _ _ _ _ => trivial), map_some, final_foldlM hdone, foldl_lbas,
    foldl_readSector, nil_append, length_nil, Nat.sub_zero]

theorem exists_skipClusters (hl : m.ClusterChain d c l) (hvol : ∀ a ∈ l, m.OnVolume a) {n : ℕ}
    (hn : l.length < n) (skip : ℕ) :
    ∃ c' l' skip', m.skipClusters d n c skip = some (c', skip') ∧ m.ClusterChain d c' l' ∧
      (∀ a ∈ l', m.OnVolume a) ∧
      (content d (m.sectors l')).drop skip' = (content d (m.sectors l)).drop skip := by
  induction l generalizing c n skip with
  | nil =>
    obtain ⟨n, rfl⟩ : ∃ k, n = k + 1 := ⟨n - 1, by omega⟩
    have hstop : fat32IsEndOfChain c := hl
    refine ⟨c, [], skip, if_neg fun h => h.2 hstop, hl, hvol, rfl⟩
  | cons a l ih =>
    obtain ⟨n, rfl⟩ : ∃ k, n = k + 1 := ⟨n - 1, by omega⟩
    have hall := hl
    obtain ⟨rfl, hstop, hrest⟩ := hl
    unfold skipClusters
    by_cases hskip : m.clusterBytes ≤ skip
    · obtain ⟨c', l', skip', hrun, hchain, hvol', hdrop⟩ :=
        ih hrest (fun b hb => hvol b (mem_cons_of_mem a hb)) (by simpa using hn)
          (skip - m.clusterBytes)
      rw [if_pos ⟨hskip, hstop⟩]
      refine ⟨c', l', skip', hrun, hchain, hvol', ?_⟩
      have hone := length_content_sectors (m := m) d [a]
      rw [length_singleton, Nat.one_mul] at hone
      have hpast : (content d (m.sectors [a])).drop skip = [] :=
        drop_eq_nil_of_le (by omega)
      rw [hdrop, ← singleton_append, sectors_append, content_append, drop_append, hone,
        hpast, nil_append]
    · rw [if_neg fun h => hskip h.1]
      exact ⟨a, _, skip, rfl, hall, hvol, rfl⟩

theorem fat32Read_run (hg : m.Geometry) (havail : m.available = true) {path : Bytes} {s : Slot}
    (hfind : m.findRootEntry d path = some (some s)) (hfile : (entryAt d s).isDirectory = false)
    (hl : m.ClusterChain d (entryAt d s).firstCluster l) (hvol : ∀ a ∈ l, m.OnVolume a)
    (offset size : ℕ) :
    ∃ out, m.fat32Read d path offset size = some (toCInt out.length, out) ∧
      out = (((content d (m.sectors l)).take (entryAt d s).fileSize).drop offset).take size := by
  obtain ⟨c', l', skip', hskip, hchain, hvol', hdrop⟩ :=
    exists_skipClusters hl hvol (length_lt_maxChain hg hl hvol) offset
  unfold fat32Read
  rw [if_neg (by simp [havail]), hfind]
  dsimp only [bind_some]
  rw [if_neg (by simp [hfile])]
  by_cases hend : (entryAt d s).fileSize ≤ offset
  · rw [if_pos hend]
    refine ⟨[], rfl, ?_⟩
    rw [drop_eq_nil_of_le (by rw [length_take]; omega), take_nil]
  · rw [if_neg hend, hskip]
    dsimp only [bind_some]
    rw [readClusters_run hg hchain hvol', hdrop]
    refine ⟨_, rfl, ?_⟩
    rw [drop_take, take_take]

end SageOS.Fat32Mount
