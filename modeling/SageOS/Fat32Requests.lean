import SageOS.Fat32Integrity
import SageOS.Fat32Returns

/-!
# When FAT32 requests return

Each request is given fuel according to its size, and then what it reads is bounded by a function of
its size alone, since there are at most 2^28 clusters with at most 255 sectors each. Every `stat`
and every read of a volume returns exactly if the directories that lookups open are bounded; every
listing returns exactly if moreover the directories that can only be listed come to an end or pass
live entries again and again.
-/
namespace SageOS
open LinkedChain Counted List Fat32Mount

/-- Rounds that are enough for each loop of a request of this size. -/
def fuelFor (size : ℕ) : ℕ := (size + 1) * 2 ^ 33

/-- Sector reads that are enough for a request of this size. -/
def readBound (size : ℕ) : ℕ := (size + 4) * (fuelFor size * (fuelFor size * 2 ^ 24))

theorem le_readBound {p size : ℕ} (hp : p ≤ size) {k : ℕ}
    (hk : k ≤ (p + 4) * (fuelFor size * 2 ^ 31)) : k ≤ readBound size := by
  refine hk.trans (Nat.mul_le_mul (by omega) (Nat.mul_le_mul_left _ ?_))
  unfold fuelFor
  omega

theorem lookup_add_le {p n a : ℕ} (ha : a ≤ 3 * (n * 2 ^ 31)) :
    (p + 1) * (n * 256) + a ≤ (p + 4) * (n * 2 ^ 31) := by
  calc (p + 1) * (n * 256) + a
    _ ≤ (p + 1) * (n * 2 ^ 31) + 3 * (n * 2 ^ 31) :=
        Nat.add_le_add (Nat.mul_le_mul_left _ (by omega)) ha
    _ = (p + 4) * (n * 2 ^ 31) := by rw [← Nat.add_mul]

theorem maxChain_le_fuelFor (size : ℕ) : maxChain + size + 1 ≤ fuelFor size := by
  unfold maxChain fuelFor
  omega

namespace Fat32Scan
variable {m : Fat32Mount} {d : Disk} {n c : ℕ} {path : Bytes}
section Costs

theorem costs_readSectors (size : ℕ) (l : List ℕ) (st : ReadState) :
    (readSectors d size l st).Costs l.length := by
  induction l generalizing st with
  | nil => exact costs_pure _
  | cons lba l ih =>
    refine ((costs_tick _).bind fun _ => ih _).mono ?_
    rw [length_cons]
    split_ifs <;> omega

theorem costs_writeSectors (l : List ℕ) (st : WriteState) : (writeSectors l st).Costs l.length := by
  induction l generalizing st with
  | nil => exact costs_pure _
  | cons lba l ih =>
    refine ((costs_tick _).bind fun _ => ih _).mono ?_
    rw [length_cons]
    split_ifs <;> omega

theorem costs_findFreeCluster : (findFreeCluster m d).Costs (2 ^ 30) := by
  have hentries : m.fatEntries < 2 ^ 30 := by
    unfold fatEntries
    omega
  refine ((costs_tick _).bind_zero fun _ => costs_pure _).mono ?_
  cases hfind : m.findFreeCluster d with
  | none =>
    dsimp only
    omega
  | some a =>
    have hmem := mem_of_find?_eq_some hfind
    rw [mem_range'_1] at hmem
    dsimp only
    omega

theorem costs_expand (writeEnd : ℕ) : (expand m d n c writeEnd).Costs (n * 2 ^ 31) := by
  refine costs_loop (fun t => (costs_pure _).ite ?_) n _
  refine ((costs_tick 1).bind (c := 2 ^ 30 + 2) fun _ => ?_).mono (by decide)
  refine Costs.ite (costs_findFreeCluster.bind fun r => ?_) (costs_pure _)
  cases r with
  | none => exact costs_pure _
  | some new => exact (costs_tick 2).bind_zero fun _ => costs_pure _

variable (hspc : m.sectorsPerCluster < 256)

include hspc

theorem costs_resolve (found : Option Slot) (parts : List Bytes) :
    (resolve m d n c found parts).Costs (parts.length * (n * 256)) := by
  induction parts generalizing c found with
  | nil => exact costs_pure _
  | cons segment rest ih =>
    rw [resolve, length_cons, Nat.add_mul, Nat.one_mul, Nat.add_comm]
    refine Costs.ite ((ih found).mono (Nat.le_add_left _ _)) ((costs_find hspc).bind fun r => ?_)
    cases r with
    | none => exact costs_pure _
    | some s =>
      refine (costs_pure _).ite ((costs_pure _).ite ((costs_pure _).ite (ih _)))

theorem costs_findRootEntry : (findRootEntry m d n path).Costs ((path.length + 1) * (n * 256)) :=
  (costs_resolve hspc none _).mono (Nat.mul_le_mul_right _ (length_splitOnP_le _ path))

theorem costs_fat32Stat : (fat32Stat m d n path).Costs ((path.length + 1) * (n * 256)) := by
  refine (costs_pure _).ite ((costs_pure _).ite ?_)
  refine (costs_findRootEntry hspc).bind_zero fun r => ?_
  cases r with
  | none => exact costs_pure _
  | some s => exact costs_pure _

theorem costs_clusters {β σ : Type} {next : σ → ℕ → ℕ} {body : σ → ℕ → Counted (Except β σ)}
    (hbody : ∀ s c, (body s c).Costs m.sectorsPerCluster) (s : σ) :
    (follow next body n c s).Costs (n * 256) :=
  (costs_follow hbody n c s).mono (Nat.mul_le_mul_left n (by omega))

theorem costs_listClusters (maxEntries : ℕ) :
    (listClusters m d n c maxEntries).Costs (n * 256) := by
  refine (costs_clusters hspc (fun st c => ?_) _).map _
  refine (costs_pure _).ite ?_
  exact (costs_scan _ _ _).mono (length_lbas m c).le

theorem costs_fat32Readdir (maxEntries : ℕ) :
    (fat32Readdir m d n path maxEntries).Costs ((path.length + 1) * (n * 256) + n * 256) := by
  have hlist := fun c => ((costs_listClusters hspc maxEntries (d := d) (n := n) (c := c)).map
    (Except.ok : _ → Except ℤ _))
  refine (costs_pure _).ite (((hlist _).mono (Nat.le_add_left _ _)).ite ?_)
  refine (costs_findRootEntry hspc).bind fun r => ?_
  cases r with
  | none => exact costs_pure _
  | some s => exact (costs_pure _).ite (hlist _)

theorem costs_fat32Read (offset size : ℕ) : (fat32Read m d n path offset size).Costs
    ((path.length + 1) * (n * 256) + (n * 1 + (n * 256 + 0))) := by
  have hskip : ∀ c skip, (skipClusters m d n c skip).Costs (n * 1) := by
    intro c skip
    refine costs_loop (fun t => ?_) n _
    exact ((costs_tick 1).bind_zero fun _ => costs_pure _).ite (costs_pure _)
  have hread : ∀ size c skip, (readClusters m d n size c skip).Costs (n * 256) := by
    intro size c skip
    refine (costs_clusters hspc (fun st c => ?_) _).map _
    refine (costs_pure _).ite (Costs.map ?_ _)
    exact (costs_readSectors size _ st).mono (length_lbas m c).le
  refine (costs_pure _).ite ((costs_findRootEntry hspc).bind fun r => ?_)
  cases r with
  | none => exact costs_pure _
  | some s =>
    refine (costs_pure _).ite ((costs_pure _).ite ?_)
    exact (hskip _ _).bind fun start => (hread _ _ _).bind fun out => costs_pure _

theorem costs_updateDirectoryEntry (name : Bytes) (e : DirEntry) :
    (updateDirectoryEntry m d n c name e).Costs (n * 256) := by
  refine Costs.mono (b := n * 256 + 0) (Costs.bind (costs_clusters hspc (fun u c => ?_) ())
    fun r => ?_) (by omega)
  · exact (costs_scan _ _ _).mono (length_lbas m c).le
  · cases r with
    | error s => exact costs_pure _
    | ok u => exact costs_pure _

theorem costs_fat32Write (offset : ℕ) (data : Bytes) : (fat32Write m d n path offset data).Costs
    ((path.length + 1) * (n * 256) + (n * 2 ^ 31 + (n * 256 + (n * 256 + 0)))) := by
  have hwrite : ∀ d c, (writeClusters m d n c offset data).Costs (n * 256) := by
    intro d c
    refine (costs_clusters hspc (fun st c => ?_) _).map _
    refine (costs_pure _).ite (Costs.map ?_ _)
    exact (costs_writeSectors _ st).mono (length_lbas m c).le
  refine (costs_pure _).ite ((costs_findRootEntry hspc).bind fun r => ?_)
  cases r with
  | none => exact costs_pure _
  | some s =>
    refine (costs_pure _).ite ((costs_expand _).bind fun r => ?_)
    refine Costs.ite ((hwrite _ _).bind fun st => ?_) (costs_pure _)
    refine Costs.ite ((costs_updateDirectoryEntry hspc _ _).bind fun _ => costs_pure _) ?_
    exact ((costs_pure _).bind_zero fun _ => costs_pure _).mono (Nat.zero_le _)

end Costs

section Requests

theorem exists_fat32Stat (h : DirsBounded m d) (hpath : 0 ∉ path) (hn : maxChain ≤ n) :
    ∃ r, (fat32Stat m d n path).Yields r := by
  unfold fat32Stat
  split_ifs
  · exact ⟨_, .pure _⟩
  · exact ⟨_, .pure _⟩
  · obtain ⟨r, hr, -⟩ := exists_findRootEntry h hn hpath
    apply hr.exists_bind
    cases r with
    | none => exact ⟨_, .pure _⟩
    | some s => exact ⟨_, .pure _⟩

variable (m d) in
/-- The first clusters of the directories that can be listed. -/
def Listed (c : ℕ) : Prop :=
  c = m.rootCluster ∨
    ∃ s, Named m d s ∧ (entryAt d s).isDirectory = true ∧ (entryAt d s).firstCluster = c

theorem Named.exists_path {s : Slot} (h : Named m d s) : ∃ path : Bytes, 0 ∉ path ∧
    path ≠ [slash] ∧ ∀ n r, (findRootEntry m d n path).Yields r → r = some s := by
  obtain ⟨b, name, hb, hname, k, hk⟩ := h
  obtain ⟨path, hpath, hreach⟩ := hb.exists_path
  have hsplit : name.splitOnP (· == slash) = [name] := by
    refine splitOnP_eq_singleton fun x hx => ?_
    have hne : x ≠ slash := fun heq => hname.slash_notMem (heq ▸ hx)
    simpa using hne
  refine ⟨path ++ name, by simp [hpath, hname.nul_notMem], fun heq => ?_, fun n r hr => ?_⟩
  · have hlast := congrArg List.getLast? heq
    rw [getLast?_append_of_ne_nil _ hname.ne_nil] at hlast
    exact hname.slash_notMem (mem_of_getLast? hlast)
  · obtain ⟨found, hf⟩ := hreach name n r hr
    rw [hsplit, resolve, if_neg hname.ne_nil, take_of_length_le hname.length_le, yields_bind] at hf
    obtain ⟨r', hr', hf⟩ := hf
    obtain rfl := find_unique hr' hk
    dsimp only at hf
    rw [if_pos rfl, yields_pure] at hf
    exact hf.symm

theorem exists_fat32Readdir (h : DirsBounded m d) (hlist : ∀ c, Listed m d c → Lists m d c)
    (hpath : 0 ∉ path) (maxEntries : ℕ) (hn : (maxEntries + 1) * (2 ^ 28 + 2) ≤ n) :
    ∃ r, (fat32Readdir m d n path maxEntries).Yields r := by
  have hmax : maxChain ≤ n := by
    unfold maxChain
    omega
  unfold fat32Readdir
  split_ifs
  · exact ⟨_, .pure _⟩
  · obtain ⟨r, hr⟩ := exists_listClusters (hlist _ (.inl rfl)) hn
    exact ⟨_, yields_map.mpr ⟨r, hr, rfl⟩⟩
  · obtain ⟨r, hr, hnamed⟩ := exists_findRootEntry h hmax hpath
    apply hr.exists_bind
    cases r with
    | none => exact ⟨_, .pure _⟩
    | some s =>
      dsimp only
      split_ifs with hdir
      · exact ⟨_, .pure _⟩
      · obtain ⟨r', hr'⟩ := exists_listClusters
          (hlist _ (.inr ⟨s, hnamed s rfl, by simpa using hdir, rfl⟩)) hn
        exact ⟨_, yields_map.mpr ⟨r', hr', rfl⟩⟩

theorem exists_fat32Read (h : DirsBounded m d) (hpath : 0 ∉ path) (offset size : ℕ)
    (hn : maxChain + offset + size < n) : ∃ r, (fat32Read m d n path offset size).Yields r := by
  unfold fat32Read
  split_ifs
  · exact ⟨_, .pure _⟩
  obtain ⟨r, hr, hnamed⟩ := exists_findRootEntry h (n := n) (by omega) hpath
  apply hr.exists_bind
  cases r with
  | none => exact ⟨_, .pure _⟩
  | some s =>
    dsimp only
    split_ifs
    · exact ⟨_, .pure _⟩
    · exact ⟨_, .pure _⟩
    · obtain ⟨c, name, -, hfinds⟩ := hnamed s rfl
      obtain ⟨start, hstart⟩ : ∃ start,
          (skipClusters m d n (entryAt d s).firstCluster offset).Yields start :=
        exists_skipClusters hfinds.spc_pos (by omega)
      obtain ⟨out, hout⟩ : ∃ out, (readClusters m d n
          (min size ((entryAt d s).fileSize - offset)) start.1 start.2).Yields out :=
        exists_readClusters (of_yields_skipClusters hstart) (by omega)
      exact hstart.exists_bind (hout.exists_bind ⟨_, .pure _⟩)

variable (m d path) in
def LeadsTo (s : Slot) : Prop := ∃ n, (findRootEntry m d n path).Yields (some s)

variable (m d) in
/-- On a sound volume the file has a first cluster and the allocator stays on the volume. -/
def StaysInside (s : Slot) (writeEnd : ℕ) : Prop :=
  m.Geometry ∧ m.ChainsOk d ∧ (entryAt d s).firstCluster ≠ 0 ∧
    ∀ l, m.ClusterChain d (entryAt d s).firstCluster l → m.Room d l writeEnd

/-- Such a write leaves the chain of the root directory as it was, so the rewriting of the directory
entry ends as well. -/
theorem exists_fat32Write_of_inside (havail : m.available = true) {s : Slot}
    (hs : LeadsTo m d path s) (hfile : (entryAt d s).isDirectory = false) (offset : ℕ)
    (data : Bytes) (hin : StaysInside m d s ((offset + data.length) % 2 ^ 64)) :
    ∃ r, m.fat32Write path offset data d = some r := by
  obtain ⟨hg, hok, hcl, hroom⟩ := hin
  obtain ⟨k, hk⟩ := hs
  obtain ⟨r, hr, -⟩ := Fat32Mount.exists_resolve (hok.dirsEnd hg) .root none nofun
    (path.splitOnP (· == slash))
  have hfind : m.findRootEntry d path = some (some s) :=
    findRootEntry_unique (yields_findRootEntry hr le_rfl) hk ▸ hr
  have hslot := fileSlot_of_find hg hok hfind hfile
  obtain ⟨l, hl, hne, hvol⟩ := hok.chain (.file s) ⟨hslot, hcl⟩
  obtain ⟨b, d₁, l', hgrown, -, -, hrun⟩ := Fat32Mount.exists_fat32Write hg havail hfind hfile hl
    hne hvol offset data (hroom l hl)
  rw [hrun]
  cases b with
  | false => exact ⟨_, rfl⟩
  | true =>
    have hwritten : m.Written d ((m.sectors l').foldl writeSector ⟨d₁, offset, data⟩).disk
        (entryAt d s).firstCluster l l' :=
      ⟨d₁, hgrown, fun _ hlba => foldl_writeSector_of_notMem _ hlba⟩
    have hsame := hwritten.sameDirs hg hok hslot hcl hl
    obtain ⟨root, hroot, hlen⟩ := hok.dirsEnd hg _ .root
    split_ifs
    · unfold Fat32Mount.updateDirectoryEntry
      rw [updateTarget_chain (hsame.chain .root hroot) hlen]
      exact ⟨_, rfl⟩
    · exact ⟨_, rfl⟩

theorem exists_fat32Write (havail : m.available = true) (h : DirsBounded m d) (hpath : 0 ∉ path)
    (offset : ℕ) (data : Bytes) (hn : maxChain + offset + data.length < n)
    (hends : ∀ s, LeadsTo m d path s → (entryAt d s).isDirectory = true ∨
      (offset + data.length) % 2 ^ 64 ≤ (entryAt d s).fileSize ∨
      StaysInside m d s ((offset + data.length) % 2 ^ 64)) :
    ∃ r, (fat32Write m d n path offset data).Yields r := by
  obtain ⟨r, hr, hnamed⟩ := exists_findRootEntry h (n := n) (by omega) hpath
  by_cases hin : ∃ s, r = some s ∧ (entryAt d s).isDirectory = false ∧
      StaysInside m d s ((offset + data.length) % 2 ^ 64)
  · obtain ⟨s, rfl, hfile, hin⟩ := hin
    obtain ⟨r, hw⟩ := exists_fat32Write_of_inside havail ⟨n, hr⟩ hfile offset data hin
    exact ⟨r, yields_fat32Write hw (by omega)⟩
  unfold fat32Write
  rw [if_neg (by simp [havail])]
  refine hr.exists_bind ?_
  cases r with
  | none => exact ⟨_, .pure _⟩
  | some s =>
    by_cases hdir : (entryAt d s).isDirectory = true
    · dsimp only
      rw [if_pos hdir]
      exact ⟨_, .pure _⟩
    -- The write ends inside the file, so the directory entry is not rewritten.
    have hshort : (offset + data.length) % 2 ^ 64 ≤ (entryAt d s).fileSize := by
      rcases hends s ⟨n, hr⟩ with h | h | h
      · exact absurd h hdir
      · exact h
      · exact absurd ⟨s, rfl, by simpa using hdir, h⟩ hin
    obtain ⟨c, name, -, hfinds⟩ := hnamed s rfl
    obtain ⟨⟨enough, d₁⟩, hexp⟩ : ∃ r, (expand m d n (entryAt d s).firstCluster
        ((offset + data.length) % 2 ^ 64)).Yields r := exists_expand hfinds.spc_pos (by omega)
    dsimp only
    rw [if_neg hdir]
    apply hexp.exists_bind
    cases enough with
    | false => exact ⟨_, .pure _⟩
    | true =>
      obtain ⟨st, hst⟩ : ∃ st, (writeClusters m d₁ n (entryAt d s).firstCluster offset
          data).Yields st := exists_writeClusters hfinds.spc_pos (by omega)
      apply hst.exists_bind
      rw [if_neg (by omega)]
      exact Yields.exists_bind (.pure _) ⟨_, .pure _⟩

end Requests

section Volume
variable (hinit : fat32Init d = some m)

include hinit

theorem stat_returns_iff : (∀ path : Bytes, 0 ∉ path →
      Returns (fun n => fat32Stat m d n path) (readBound path.length)) ↔ DirsBounded m d := by
  obtain ⟨havail, hspc⟩ := of_fat32Init hinit
  constructor
  · intro h
    refine bounded_of_lookups fun path hpath hslash => ?_
    obtain ⟨n, r, hr⟩ := (h path hpath).yields
    unfold fat32Stat at hr
    rw [if_neg (by simp [havail]), if_neg hslash, yields_bind] at hr
    obtain ⟨r', hr', -⟩ := hr
    exact ⟨n, r', hr'⟩
  · intro h path hpath
    have hfuel := maxChain_le_fuelFor path.length
    obtain ⟨r, hr⟩ := exists_fat32Stat h hpath (n := fuelFor path.length) (by omega)
    refine ⟨fuelFor path.length, hr.within ((costs_fat32Stat hspc).mono (le_readBound le_rfl ?_))⟩
    exact Nat.mul_le_mul (by omega) (by omega)

theorem readdir_returns_iff : (∀ (path : Bytes) (maxEntries : ℕ), 0 ∉ path →
      Returns (fun n => fat32Readdir m d n path maxEntries)
        (readBound (path.length + maxEntries))) ↔
      DirsBounded m d ∧ ∀ c, Listed m d c → Lists m d c := by
  obtain ⟨havail, hspc⟩ := of_fat32Init hinit
  constructor
  · intro h
    have hfind : ∀ (path : Bytes) (maxEntries : ℕ), 0 ∉ path → path ≠ [slash] → ∃ n r,
        (findRootEntry m d n path).Yields r ∧ ∀ s, r = some s → (entryAt d s).isDirectory = true →
            ∃ l, (listClusters m d n (entryAt d s).firstCluster maxEntries).Yields l := by
      intro path maxEntries hpath hslash
      obtain ⟨n, r, hr⟩ := (h path maxEntries hpath).yields
      unfold fat32Readdir at hr
      rw [if_neg (by simp [havail]), if_neg hslash, yields_bind] at hr
      obtain ⟨r', hr', hrest⟩ := hr
      refine ⟨n, r', hr', fun s hs hdir => ?_⟩
      subst hs
      dsimp only at hrest
      rw [if_neg (by simp [hdir])] at hrest
      obtain ⟨l, hl, -⟩ := yields_map.mp hrest
      exact ⟨l, hl⟩
    refine ⟨bounded_of_lookups fun path hpath hslash => ?_, fun c hc => ?_⟩
    · obtain ⟨n, r, hr, -⟩ := hfind path 0 hpath hslash
      exact ⟨n, r, hr⟩
    · apply lists_of_listings
      intro maxEntries
      rcases hc with rfl | ⟨s, hs, hdir, rfl⟩
      · obtain ⟨n, r, hr⟩ := (h [slash] maxEntries (by decide)).yields
        unfold fat32Readdir at hr
        rw [if_neg (by simp [havail]), if_pos rfl] at hr
        obtain ⟨l, hl, -⟩ := yields_map.mp hr
        exact ⟨n, l, hl⟩
      · obtain ⟨path, hpath, hslash, hleads⟩ := hs.exists_path
        obtain ⟨n, r, hr, hlist⟩ := hfind path maxEntries hpath hslash
        obtain ⟨l, hl⟩ := hlist s (hleads n r hr) hdir
        exact ⟨n, l, hl⟩
  · intro ⟨h, hlist⟩ path maxEntries hpath
    obtain ⟨r, hr⟩ := exists_fat32Readdir h hlist hpath maxEntries
      (n := fuelFor (path.length + maxEntries)) (by unfold fuelFor; omega)
    refine ⟨fuelFor (path.length + maxEntries), hr.within
      ((costs_fat32Readdir hspc maxEntries).mono (le_readBound (Nat.le_add_right _ _) ?_))⟩
    exact lookup_add_le (by omega)

theorem read_returns_iff : (∀ (path : Bytes) (offset size : ℕ), 0 ∉ path →
      Returns (fun n => fat32Read m d n path offset size)
        (readBound (path.length + offset + size))) ↔ DirsBounded m d := by
  obtain ⟨havail, hspc⟩ := of_fat32Init hinit
  constructor
  · intro h
    refine bounded_of_lookups fun path hpath _ => ?_
    obtain ⟨n, r, hr⟩ := (h path 0 0 hpath).yields
    unfold fat32Read at hr
    rw [if_neg (by simp [havail]), yields_bind] at hr
    obtain ⟨r', hr', -⟩ := hr
    exact ⟨n, r', hr'⟩
  · intro h path offset size hpath
    have hfuel := maxChain_le_fuelFor (path.length + offset + size)
    obtain ⟨r, hr⟩ := exists_fat32Read h hpath offset size
      (n := fuelFor (path.length + offset + size)) (by omega)
    refine ⟨fuelFor (path.length + offset + size), hr.within
      ((costs_fat32Read hspc offset size).mono (le_readBound (p := path.length) (by omega) ?_))⟩
    exact lookup_add_le (by omega)

theorem write_returns (h : DirsBounded m d) (path : Bytes) (offset : ℕ) (data : Bytes)
    (hpath : 0 ∉ path)
    (hends : ∀ s, LeadsTo m d path s → (entryAt d s).isDirectory = true ∨
      (offset + data.length) % 2 ^ 64 ≤ (entryAt d s).fileSize ∨
      StaysInside m d s ((offset + data.length) % 2 ^ 64)) :
    Returns (fun n => fat32Write m d n path offset data)
      (readBound (path.length + offset + data.length)) := by
  obtain ⟨havail, hspc⟩ := of_fat32Init hinit
  have hfuel := maxChain_le_fuelFor (path.length + offset + data.length)
  obtain ⟨r, hr⟩ := exists_fat32Write havail h hpath offset data
    (n := fuelFor (path.length + offset + data.length)) (by omega) hends
  refine ⟨fuelFor (path.length + offset + data.length), hr.within
    ((costs_fat32Write hspc offset data).mono (le_readBound (p := path.length) (by omega) ?_))⟩
  exact lookup_add_le (by omega)

end Volume
end Fat32Scan
end SageOS
