import SageOS.Fat32Listing
import SageOS.Fat32Written

/-!
# FAT32 requests that return

Reading and writing make progress in every round as soon as a cluster has a sector, and without
sectors no file is ever found. So with directories that can be searched every `stat` and every read
returns. A write that makes the file longer also walks over the chain of the root directory as it
has left it; this chain ends when the write stays inside the clusters of its file.
-/
namespace SageOS.Fat32Scan
open LinkedChain Counted List Option
variable {m : Fat32Mount} {d : Disk} {n c : ℕ} {path : Bytes}

theorem Finds.spc_pos {name : Bytes} {s : Slot} (h : Finds m d c name s) :
    0 < m.sectorsPerCluster := by
  obtain ⟨-, n, hn⟩ := h
  obtain ⟨w, hw, hr⟩ := yields_find.mp hn
  by_contra hzero
  cases w with
  | ok ln => cases hr
  | error r =>
    obtain ⟨ln, a, ha⟩ := exists_body_of_walk hw
    have hslots : m.slots a = [] := by
      apply eq_nil_of_length_eq_zero
      rw [length_slots]
      omega
    rw [hslots] at ha
    cases ha

section Read
variable {size : ℕ}

theorem yields_readSectors (l : List ℕ) (st : ReadState) :
    (readSectors d size l st).Yields (l.foldl (readSector d size) st) := by
  induction l generalizing st with
  | nil => exact .pure _
  | cons lba l ih =>
    rw [readSectors, yields_tick_bind]
    exact ih _

theorem skip_foldl_readSector_le (l : List ℕ) (st : ReadState) :
    (l.foldl (readSector d size) st).skip ≤ st.skip := by
  induction l generalizing st with
  | nil => exact le_rfl
  | cons lba l ih =>
    refine (ih _).trans ?_
    unfold readSector
    split_ifs
    · exact le_rfl
    · exact Nat.sub_le _ _
    · exact Nat.zero_le _

variable {skip : ℕ}

theorem exists_skipClusters (hspc : 0 < m.sectorsPerCluster) (hn : skip < n) :
    ∃ r, (skipClusters m d n c skip).Yields r := by
  refine exists_yields_loop (I := fun _ => True) (μ := fun t => t.2) (fun t _ => ?_) trivial hn
  have hbytes : 0 < m.clusterBytes := Nat.mul_pos hspc (by decide)
  unfold skipStep
  split_ifs with hmore
  · refine .inr ⟨_, yields_tick_bind.mpr (.pure _), trivial, ?_⟩
    omega
  · exact .inl ⟨t, .pure _⟩

theorem of_yields_skipClusters {r : ℕ × ℕ} (h : (skipClusters m d n c skip).Yields r) :
    r.2 < m.clusterBytes ∨ fat32IsEndOfChain r.1 := by
  obtain ⟨t, ht⟩ := h.exit
  unfold skipStep at ht
  split_ifs at ht with hmore
  · rw [yields_tick_bind, yields_pure] at ht
    cases ht
  · rw [yields_pure] at ht
    cases ht
    by_cases hend : fat32IsEndOfChain r.1
    · exact .inr hend
    · exact .inl (by by_contra hle; exact hmore ⟨by omega, hend⟩)

theorem yields_readClusters {r : Bytes} : (readClusters m d n size c skip).Yields r ↔
    ∃ w, walk (fun _ => m.readFatEntry d) fat32IsEndOfChain
      (fun st c => if size ≤ st.out.length then .error st
        else .ok ((m.lbas c).foldl (readSector d size) st)) n c (⟨skip, []⟩ : ReadState) = some w ∧
      (final w).out = r := by
  unfold readClusters
  rw [yields_map]
  refine exists_congr fun w => and_congr_left fun _ => yields_follow fun st c => ?_
  split_ifs
  · exact .pure _
  · exact yields_map.mpr ⟨_, yields_readSectors _ _, rfl⟩

theorem exists_readClusters (hskip : skip < m.clusterBytes ∨ fat32IsEndOfChain c)
    (hn : size < n) : ∃ r, (readClusters m d n size c skip).Yields r := by
  suffices hw : ∃ w, walk (fun _ => m.readFatEntry d) fat32IsEndOfChain
      (fun st c => if size ≤ st.out.length then .error st
        else .ok ((m.lbas c).foldl (readSector d size) st)) n c (⟨skip, []⟩ : ReadState) = some w by
    obtain ⟨w, hw⟩ := hw
    exact ⟨_, yields_readClusters.mpr ⟨w, hw, rfl⟩⟩
  rcases hskip with hskip | hend
  · refine exists_walk_of_measure (I := fun st => st.skip < m.clusterBytes)
      (fun st => size - st.out.length) (fun st c st' hst hbody => ?_) hskip ?_ c
    · split_ifs at hbody with hfull
      obtain rfl := Except.ok.inj hbody
      have hlen := length_content d (m.lbas c)
      rw [length_lbas] at hlen
      unfold Fat32Mount.clusterBytes at hst
      refine ⟨(skip_foldl_readSector_le _ st).trans_lt hst, ?_⟩
      rw [foldl_readSector, length_append, length_take, length_drop, hlen]
      omega
    · omega
  · obtain ⟨n, rfl⟩ : ∃ k, n = k + 1 := ⟨n - 1, by omega⟩
    exact ⟨_, if_pos hend⟩

end Read

section Write

theorem yields_writeSectors (l : List ℕ) (st : WriteState) :
    (writeSectors l st).Yields (l.foldl writeSector st) := by
  induction l generalizing st with
  | nil => exact .pure _
  | cons lba l ih =>
    rw [writeSectors, yields_tick_bind]
    exact ih _

theorem todo_writeSector_le (st : WriteState) (lba : ℕ) :
    (writeSector st lba).skip + (writeSector st lba).rest.length ≤ st.skip + st.rest.length ∧
      (st.rest ≠ [] → (writeSector st lba).skip + (writeSector st lba).rest.length <
        st.skip + st.rest.length) := by
  by_cases hrest : st.rest = []
  · rw [writeSector_done hrest]
    exact ⟨le_rfl, fun h => absurd hrest h⟩
  have hpos := length_pos_of_ne_nil hrest
  rcases Nat.lt_or_ge st.skip 512 with hskip | hskip
  · obtain ⟨s, -, hst⟩ := writeSector_store hrest hskip lba
    rw [hst]
    dsimp only
    rw [length_drop]
    omega
  · rw [writeSector_skip hrest hskip]
    dsimp only
    omega

theorem todo_foldl_writeSector_le (l : List ℕ) (st : WriteState) :
    (l.foldl writeSector st).skip + (l.foldl writeSector st).rest.length ≤
      st.skip + st.rest.length := by
  induction l generalizing st with
  | nil => exact le_rfl
  | cons lba l ih => exact (ih _).trans (todo_writeSector_le st lba).1

theorem todo_foldl_writeSector_lt {l : List ℕ} (hl : l ≠ []) {st : WriteState}
    (hst : st.rest ≠ []) :
    (l.foldl writeSector st).skip + (l.foldl writeSector st).rest.length <
      st.skip + st.rest.length := by
  cases l with
  | nil => exact absurd rfl hl
  | cons lba l =>
    exact (todo_foldl_writeSector_le l _).trans_lt ((todo_writeSector_le st lba).2 hst)

def writeWalk (m : Fat32Mount) (n c : ℕ) (st : WriteState) :
    Option (Except WriteState WriteState) :=
  walk (fun st => m.readFatEntry st.disk) fat32IsEndOfChain
    (fun st c => if st.rest = [] then .error st else .ok ((m.lbas c).foldl writeSector st)) n c st

theorem yields_writeClusters {offset : ℕ} {data : Bytes} {st : WriteState} :
    (writeClusters m d n c offset data).Yields st ↔
      ∃ w, writeWalk m n c ⟨d, offset, data⟩ = some w ∧ final w = st := by
  unfold writeClusters
  rw [yields_map]
  refine exists_congr fun w => and_congr_left fun _ => yields_follow fun st c => ?_
  split_ifs
  · exact .pure _
  · exact yields_map.mpr ⟨_, yields_writeSectors _ _, rfl⟩

theorem exists_writeClusters (hspc : 0 < m.sectorsPerCluster) {offset : ℕ} {data : Bytes}
    (hn : offset + data.length < n) : ∃ st, (writeClusters m d n c offset data).Yields st := by
  suffices hw : ∃ w, writeWalk m n c ⟨d, offset, data⟩ = some w by
    obtain ⟨w, hw⟩ := hw
    exact ⟨_, yields_writeClusters.mpr ⟨w, hw, rfl⟩⟩
  refine exists_walk_of_measure (I := fun _ => True) (fun st => st.skip + st.rest.length)
    (fun st c st' _ hbody => ⟨trivial, ?_⟩) trivial hn c
  split_ifs at hbody with hrest
  obtain rfl := Except.ok.inj hbody
  refine todo_foldl_writeSector_lt (fun hnil => ?_) hrest
  have hlen := length_lbas m c
  rw [hnil, length_nil] at hlen
  omega

/-- Where a round of the loop leads that makes the chain longer. -/
def expandNext (m : Fat32Mount) (t : ℕ × ℕ × Disk) : (Bool × Disk) ⊕ (ℕ × ℕ × Disk) :=
  if t.2.1 ≤ m.clusterBytes then .inl (true, t.2.2)
  else if fat32IsEndOfChain (m.readFatEntry t.2.2 t.1) then
    match m.findFreeCluster t.2.2 with
    | none => .inl (false, t.2.2)
    | some new => .inr (new, t.2.1 - m.clusterBytes,
        m.writeFatEntry new 0x0FFFFFFF (m.writeFatEntry t.1 new t.2.2))
  else .inr (m.readFatEntry t.2.2 t.1, t.2.1 - m.clusterBytes, t.2.2)

theorem yields_expandStep (t : ℕ × ℕ × Disk) : (expandStep m t).Yields (expandNext m t) := by
  unfold expandStep expandNext
  by_cases hdone : t.2.1 ≤ m.clusterBytes
  · rw [if_pos hdone, if_pos hdone]
    exact .pure _
  rw [if_neg hdone, if_neg hdone, yields_tick_bind]
  by_cases hend : fat32IsEndOfChain (m.readFatEntry t.2.2 t.1)
  · rw [if_pos hend, if_pos hend]
    refine yields_bind.mpr ⟨_, yields_tick_bind.mpr (.pure _), ?_⟩
    cases m.findFreeCluster t.2.2 with
    | none => exact .pure _
    | some new => exact yields_tick_bind.mpr (.pure _)
  · rw [if_neg hend, if_neg hend]
    exact .pure _

theorem lt_of_expandNext (hspc : 0 < m.sectorsPerCluster) {t t' : ℕ × ℕ × Disk}
    (h : expandNext m t = .inr t') : t'.2.1 < t.2.1 := by
  have hbytes : 0 < m.clusterBytes := Nat.mul_pos hspc (by decide)
  unfold expandNext at h
  split_ifs at h with hdone hend
  · cases hfree : m.findFreeCluster t.2.2 with
    | none =>
      rw [hfree] at h
      cases h
    | some new =>
      rw [hfree] at h
      obtain rfl := Sum.inr.inj h
      dsimp only
      omega
  · obtain rfl := Sum.inr.inj h
    dsimp only
    omega

theorem exists_expand (hspc : 0 < m.sectorsPerCluster) {writeEnd : ℕ} (hn : writeEnd < n) :
    ∃ r, (expand m d n c writeEnd).Yields r := by
  refine exists_yields_loop (I := fun _ => True) (μ := fun t => t.2.1) (fun t _ => ?_) trivial hn
  have hstep := yields_expandStep (m := m) t
  cases hnext : expandNext m t with
  | inl r => exact .inl ⟨r, hnext ▸ hstep⟩
  | inr t' => exact .inr ⟨t', hnext ▸ hstep, trivial, lt_of_expandNext hspc hnext⟩

theorem expand_succ (m : Fat32Mount) (n c writeEnd : ℕ) (d : Disk) :
    m.expand (n + 1) c writeEnd d = match expandNext m (c, writeEnd, d) with
      | .inl r => some r
      | .inr t => m.expand n t.1 t.2.1 t.2.2 := by
  rw [Fat32Mount.expand]
  unfold expandNext
  split_ifs
  · rfl
  · cases m.findFreeCluster d <;> rfl
  · rfl

theorem yields_expand {writeEnd k : ℕ} {r : Bool × Disk} (h : m.expand k c writeEnd d = some r)
    (hk : k ≤ n) : (expand m d n c writeEnd).Yields r := by
  unfold expand
  induction k generalizing c writeEnd d n with
  | zero => cases h
  | succ k ih =>
    obtain ⟨n, rfl⟩ : ∃ i, n = i + 1 := ⟨n - 1, by omega⟩
    have hstep := yields_expandStep (m := m) (c, writeEnd, d)
    rw [expand_succ] at h
    rw [yields_loop_succ]
    cases hnext : expandNext m (c, writeEnd, d) with
    | inl r' =>
      rw [hnext] at h hstep
      cases h
      exact .inl hstep
    | inr t =>
      rw [hnext] at h hstep
      exact .inr ⟨t, hstep, ih h (by omega)⟩

theorem yields_updateDirectoryEntry {name : Bytes} {e : DirEntry} {d' : Disk}
    (h : m.updateDirectoryEntry d c name e = some d') (hn : maxChain ≤ n) :
    (updateDirectoryEntry m d n c name e).Yields d' := by
  unfold Fat32Mount.updateDirectoryEntry Fat32Mount.updateTarget at h
  rw [Option.map_map] at h
  obtain ⟨w, hw, hd⟩ := Option.map_eq_some_iff.mp h
  refine yields_bind.mpr ⟨w, (yields_follow fun u c => ?_).mpr (walk_mono hw hn), ?_⟩
  · exact yields_scan_slots _ u c
  · cases w with
    | error s => exact yields_pure.mpr hd
    | ok u => exact yields_pure.mpr hd

end Write

section Lookup
variable {found r : Option Slot} {parts : List Bytes}

theorem yields_findEntryInCluster {name : Bytes} (h : m.findEntryInCluster d c name = some r)
    (hn : maxChain ≤ n) : (findEntryInCluster m d n c name).Yields r := by
  obtain ⟨w, hw, hr⟩ := map_eq_some_iff.mp h
  refine yields_find.mpr ⟨w, walk_mono hw hn, ?_⟩
  cases w with
  | error r' => exact hr
  | ok ln => exact hr

theorem resolve_congr {k : ℕ} (hfind : ∀ c name r, (findEntryInCluster m d k c name).Yields r →
      (findEntryInCluster m d n c name).Yields r)
    (h : (resolve m d k c found parts).Yields r) : (resolve m d n c found parts).Yields r := by
  induction parts generalizing c found with
  | nil => exact h
  | cons segment rest ih =>
    rw [resolve] at h ⊢
    by_cases hempty : segment = []
    · rw [if_pos hempty] at h ⊢
      exact ih h
    rw [if_neg hempty, yields_bind] at h ⊢
    obtain ⟨r', hr', h⟩ := h
    refine ⟨r', hfind _ _ _ hr', ?_⟩
    cases r' with
    | none => exact h
    | some s =>
      dsimp only at h ⊢
      split_ifs at h ⊢
      · exact h
      · exact h
      · exact h
      · exact ih h

theorem findRootEntry_unique {k : ℕ} {r' : Option Slot} (h : (findRootEntry m d n path).Yields r)
    (h' : (findRootEntry m d k path).Yields r') : r = r' :=
  (resolve_congr (fun _ _ _ hf => find_mono hf (Nat.le_max_left n k)) h).unique
    (resolve_congr (fun _ _ _ hf => find_mono hf (Nat.le_max_right n k)) h')

theorem yields_resolve (h : m.resolve d c found parts = some r) (hn : maxChain ≤ n) :
    (resolve m d n c found parts).Yields r := by
  induction parts generalizing c found with
  | nil => exact yields_pure.mpr (some.inj h)
  | cons segment rest ih =>
    rw [Fat32Mount.resolve] at h
    rw [resolve]
    by_cases hempty : segment = []
    · rw [if_pos hempty] at h ⊢
      exact ih h
    rw [if_neg hempty] at h ⊢
    obtain ⟨r', hr', h⟩ := bind_eq_some_iff.mp h
    refine yields_bind.mpr ⟨r', yields_findEntryInCluster hr' hn, ?_⟩
    cases r' with
    | none => exact yields_pure.mpr (some.inj h)
    | some s =>
      dsimp only at h ⊢
      split_ifs at h ⊢
      · exact yields_pure.mpr (some.inj h)
      · exact yields_pure.mpr (some.inj h)
      · exact yields_pure.mpr (some.inj h)
      · exact ih h

theorem yields_findRootEntry (h : m.findRootEntry d path = some r) (hn : maxChain ≤ n) :
    (findRootEntry m d n path).Yields r := yields_resolve h hn

end Lookup

theorem yields_fat32Write {offset : ℕ} {data : Bytes} {r : ℤ × Disk}
    (h : m.fat32Write path offset data d = some r)
    (hn : maxChain + offset + data.length ≤ n) : (fat32Write m d n path offset data).Yields r := by
  have hmax : 0 < maxChain := by decide
  unfold Fat32Mount.fat32Write at h
  unfold fat32Write
  by_cases havail : m.available = false
  · rw [if_pos havail] at h ⊢
    exact yields_pure.mpr (some.inj h)
  rw [if_neg havail] at h ⊢
  obtain ⟨s, hs, h⟩ := bind_eq_some_iff.mp h
  refine yields_bind.mpr ⟨s, yields_findRootEntry hs (by omega), ?_⟩
  cases s with
  | none => exact yields_pure.mpr (some.inj h)
  | some s =>
    dsimp only at h ⊢
    by_cases hdir : (entryAt d s).isDirectory = true
    · rw [if_pos hdir] at h ⊢
      exact yields_pure.mpr (some.inj h)
    rw [if_neg hdir] at h ⊢
    obtain ⟨⟨enough, d₁⟩, hexp, h⟩ := bind_eq_some_iff.mp h
    refine yields_bind.mpr ⟨(enough, d₁), yields_expand hexp (by omega), ?_⟩
    cases enough with
    | false => exact yields_pure.mpr (some.inj h)
    | true =>
      obtain ⟨st, hst, h⟩ := bind_eq_some_iff.mp h
      obtain ⟨d₂, hd₂, hr⟩ := map_eq_some_iff.mp h
      obtain ⟨w, hw, hfin⟩ := map_eq_some_iff.mp hst
      refine yields_bind.mpr ⟨st, yields_writeClusters.mpr ⟨w, walk_mono hw hn, hfin⟩, ?_⟩
      split_ifs at hd₂ ⊢
      · exact yields_bind.mpr ⟨d₂, yields_updateDirectoryEntry hd₂ (by omega), yields_pure.mpr hr⟩
      · obtain rfl := some.inj hd₂
        exact yields_bind.mpr ⟨st.disk, .pure _, yields_pure.mpr hr⟩

end SageOS.Fat32Scan
