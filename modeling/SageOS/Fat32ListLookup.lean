import SageOS.Fat32Names
import SageOS.Fat32Requests
import SageOS.Fat32Slice

/-!
# Listings and lookups agree

A listed name leads back to its entry exactly if it is not empty and has no slash in it and the
directory can be walked through. Short names with these properties are all names that the format
allows; of a long name only the low bytes of its characters are kept, and these can be slashes or
zeros.
-/
namespace SageOS
open LinkedChain Counted List Option Fat32Scan
section Letters

theorem upper_lower (c : UInt8) : upper (lower c) = upper c := by
  have h : ∀ c : Fin 256, upper (lower ⟨⟨c⟩⟩) = upper ⟨⟨c⟩⟩ := by decide +kernel
  exact h c.toBitVec.toFin

theorem lower_eq_iff (c : UInt8) : (lower c = 0 ↔ c = 0) ∧ (lower c = slash ↔ c = slash) := by
  have h : ∀ c : Fin 256, (lower ⟨⟨c⟩⟩ = 0 ↔ (⟨⟨c⟩⟩ : UInt8) = 0) ∧
      (lower ⟨⟨c⟩⟩ = slash ↔ (⟨⟨c⟩⟩ : UInt8) = slash) := by decide +kernel
  exact h c.toBitVec.toFin

theorem upper_eq_slash_iff (c : UInt8) : upper c = slash ↔ c = slash := by
  have h : ∀ c : Fin 256, upper ⟨⟨c⟩⟩ = slash ↔ (⟨⟨c⟩⟩ : UInt8) = slash := by decide +kernel
  exact h c.toBitVec.toFin

theorem slash_mem_of_map_upper {s t : Bytes} (h : s.map upper = t.map upper) (hs : slash ∈ s) :
    slash ∈ t := by
  have hmem : slash ∈ s.map upper := mem_map.mpr ⟨slash, hs, by decide⟩
  rw [h] at hmem
  obtain ⟨x, hx, hupper⟩ := mem_map.mp hmem
  rwa [(upper_eq_slash_iff x).mp hupper] at hx

variable {d : Disk} {l : List Slot} {ln : LongName} {p : NamedEntry}

theorem map_upper_shown (hp : p ∈ namedEntries d ln l) (hlen : p.name.length ≤ 63) :
    p.shown.chars.map upper = p.name.map upper := by
  fun_induction namedEntries d ln l with
  | case1 => cases hp
  | case2 => cases hp
  | case3 _ _ _ _ _ ih => exact ih hp
  | case4 _ _ _ _ _ _ ih => exact ih hp
  | case5 ln s l h0 h1 h2 ih =>
    rcases mem_cons.mp hp with rfl | hp
    · unfold LongName.entryName at hlen ⊢
      split_ifs at hlen ⊢ with hactive
      · rw [NameBuffer.chars_strncpy, take_of_length_le hlen]
        intro hzero
        have hkept := mem_takeWhile_imp hzero
        simp at hkept
      · have hchars : (Fat32Mount.entryToName (entryAt d s)).chars =
            ((cstring (entryAt d s).shortName).map lower).take 63 := by
          change (((entryAt d s).shortName.map lower).takeWhile (· ≠ 0)).take 63 = _
          rw [takeWhile_map]
          congr 3
          funext c
          exact decide_eq_decide.mpr (not_congr (lower_eq_iff c).1)
        rw [hchars, List.take_of_length_le (by rwa [length_map]), List.map_map]
        exact List.map_congr_left fun c _ => upper_lower c
    · exact ih hp

end Letters

namespace Fat32Mount
variable {m : Fat32Mount} {d : Disk} {c : ℕ} {l : List ℕ} {found : Option Slot} {s : Slot}
  {segments tail : List Bytes} {dir path name : Bytes}

section Paths

theorem findEntryInCluster_names (hl : m.ClusterChain d c l) (hlen : l.length < maxChain)
    (name : Bytes) : m.findEntryInCluster d c name =
      some (((m.names d l).find? fun p => streq p.name name).map (·.slot)) := by
  rw [findEntryInCluster_chain hl hlen]
  exact foldlM_findStep name

theorem resolve_of_empty (h : ∀ segment ∈ segments, segment = []) :
    m.resolve d c found (segments ++ tail) = m.resolve d c found tail := by
  induction segments with
  | nil => rfl
  | cons segment rest ih =>
    rw [cons_append, resolve, if_pos (h segment mem_cons_self)]
    exact ih fun seg hseg => h seg (mem_cons_of_mem segment hseg)

theorem resolve_append (h : m.resolve d c found segments = some (some s))
    (hsome : ∃ segment ∈ segments, segment ≠ []) (htail : tail ≠ []) :
    m.resolve d c found (segments ++ tail) =
      if (entryAt d s).isDirectory = false then some none
      else if (entryAt d s).firstCluster < 2 then some none
      else m.resolve d (entryAt d s).firstCluster (some s) tail := by
  induction segments generalizing c found with
  | nil => simp at hsome
  | cons segment rest ih =>
    rw [cons_append]
    by_cases hempty : segment = []
    · rw [resolve, if_pos hempty] at h ⊢
      exact ih h (by simpa [hempty] using hsome)
    rcases hr : m.findEntryInCluster d c (segment.take 255) with _ | _ | t
    · rw [resolve, if_neg hempty, hr] at h
      cases h
    · rw [resolve_of_find_none hempty hr] at h
      cases h
    rw [resolve_of_find hempty hr] at h ⊢
    rw [if_neg (by simp [htail])]
    by_cases hrest : ∃ segment ∈ rest, segment ≠ []
    · have hne : rest ≠ [] := by
        rintro rfl
        simp at hrest
      rw [if_neg hne] at h
      split_ifs at h with hdir hfirst
      · cases h
      · cases h
      · rw [if_neg hdir, if_neg hfirst]
        exact ih h hrest
    · push Not at hrest
      have hts : t = s := by
        split_ifs at h
        · exact some.inj (some.inj h)
        · cases h
        · cases h
        · rw [← append_nil rest, resolve_of_empty hrest] at h
          exact some.inj (some.inj h)
      rw [hts, resolve_of_empty hrest]

theorem splitOnP_below (dir name : Bytes) : (dir ++ slash :: name).splitOnP (· == slash) =
    dir.splitOnP (· == slash) ++ name.splitOnP (· == slash) := by
  induction dir with
  | nil => simp [splitOnP_cons_eq_if_modifyHead]
  | cons a dir ih =>
    rw [cons_append, splitOnP_cons_eq_if_modifyHead, ih, splitOnP_cons_eq_if_modifyHead]
    split_ifs
    · rfl
    · cases hdir : dir.splitOnP (· == slash) with
      | nil => exact absurd hdir (splitOnP_ne_nil _ _)
      | cons first rest => rfl

variable (m d) in
def DirPath (dir : Bytes) (c : ℕ) : Prop :=
  dir = [slash] ∧ c = m.rootCluster ∨ ∃ s, m.findRootEntry d dir = some (some s) ∧
    (entryAt d s).isDirectory = true ∧ (entryAt d s).firstCluster = c

theorem DirPath.dirHead (hg : m.Geometry) (hok : m.ChainsOk d) (h : m.DirPath d dir c)
    (hc : 2 ≤ c) : m.DirHead d c := by
  rcases h with ⟨-, rfl⟩ | ⟨s, hs, hdir, rfl⟩
  · exact .root
  · obtain ⟨c', l', hc', hl', hlive⟩ := exists_of_findRootEntry (hok.dirsEnd hg) hs
    exact .sub hc' hl' hlive hdir hc

theorem DirPath.findRootEntry_below (hok : m.ChainsOk d) (h : m.DirPath d dir c) :
    ∃ found, ∀ name, m.findRootEntry d (dir ++ slash :: name) =
      if c < 2 then some none else m.resolve d c found (name.splitOnP (· == slash)) := by
  unfold findRootEntry
  rcases h with ⟨rfl, rfl⟩ | ⟨s, hs, hdir, rfl⟩
  · obtain ⟨l, hl, hne, hvol⟩ := hok.chain (.dir _) .root
    obtain ⟨a, l, rfl⟩ := exists_cons_of_ne_nil hne
    have hroot : m.OnVolume m.rootCluster := by
      have heq : a = m.rootCluster := hl.1
      exact heq ▸ hvol a mem_cons_self
    refine ⟨none, fun name => ?_⟩
    rw [splitOnP_below, if_neg (by have := hroot.1; omega)]
    exact resolve_of_empty (by decide)
  · refine ⟨some s, fun name => ?_⟩
    have hsome : ∃ segment ∈ dir.splitOnP (· == slash), segment ≠ [] := by
      by_contra hnone
      push Not at hnone
      rw [findRootEntry, ← append_nil (dir.splitOnP _), resolve_of_empty hnone] at hs
      cases hs
    rw [splitOnP_below, resolve_append hs hsome (splitOnP_ne_nil _ _), if_neg (by simp [hdir])]

theorem resolve_single (hne : name ≠ []) : m.resolve d c found [name] =
    m.findEntryInCluster d c (name.take 255) := by
  rcases hr : m.findEntryInCluster d c (name.take 255) with _ | _ | t
  · rw [resolve, if_neg hne, hr]
    rfl
  · exact resolve_of_find_none hne hr
  · rw [resolve_of_find hne hr, if_pos rfl]

theorem splitOnP_of_notMem (h : slash ∉ name) : name.splitOnP (· == slash) = [name] := by
  refine splitOnP_eq_singleton fun x hx => ?_
  have hne : x ≠ slash := fun heq => h (heq ▸ hx)
  simpa using hne

end Paths

section Agreement
variable (m d) in
/-- An entry of a directory is named by something that can be a part of a path. -/
def Proper (s : Slot) : Prop := ∃ c l, m.DirHead d c ∧ m.ClusterChain d c l ∧
  ∃ p ∈ m.names d l, p.slot = s ∧ p.name ≠ [] ∧ slash ∉ p.name

theorem proper_of_resolve (hend : m.DirsEnd d) (hc : m.DirHead d c)
    (hfound : ∀ s, found = some s → m.Proper d s) (hsegments : ∀ seg ∈ segments, slash ∉ seg)
    (h : m.resolve d c found segments = some (some s)) : m.Proper d s := by
  induction segments generalizing c found with
  | nil => exact hfound s (some.inj h)
  | cons segment rest ih =>
    have hrest := fun seg hseg => hsegments seg (mem_cons_of_mem segment hseg)
    by_cases hempty : segment = []
    · rw [resolve, if_pos hempty] at h
      exact ih hc hfound hrest h
    obtain ⟨r, hr, hlive⟩ := exists_findEntryInCluster hend hc (segment.take 255)
    cases r with
    | none =>
      rw [resolve_of_find_none hempty hr] at h
      cases h
    | some t =>
      obtain ⟨l, hl, ht⟩ := hlive t rfl
      obtain ⟨l', hl', hlen⟩ := hend c hc
      obtain rfl := Chain.unique hl hl'
      have hthis : m.Proper d t := by
        rw [findEntryInCluster_names hl hlen, some_inj, map_eq_some_iff] at hr
        obtain ⟨p, hp, hslot⟩ := hr
        have hname : p.name.map upper = (segment.take 255).map upper :=
          streq_iff.mp (find?_some (p := fun p : NamedEntry => streq p.name _) hp)
        refine ⟨c, l, hc, hl, p, mem_of_find?_eq_some hp, hslot, fun hnil => hempty ?_,
          fun hmem => hsegments segment mem_cons_self
            (mem_of_mem_take (slash_mem_of_map_upper hname hmem))⟩
        rw [hnil] at hname
        simpa using hname.symm
      rw [resolve_of_find hempty hr] at h
      split_ifs at h with hlast hdir hfirst
      · exact some.inj (some.inj h) ▸ hthis
      · cases h
      · cases h
      · exact ih (.sub hc hl ht (by simpa using hdir) (by omega))
          (fun s' hs' => some.inj hs' ▸ hthis) hrest h

theorem nodup_dirSlots (hg : m.Geometry) (hl : l.Nodup) (hvol : ∀ a ∈ l, m.OnVolume a) :
    (m.dirSlots l).Nodup := by
  have hsectors : m.dirSlots l = (m.sectors l).flatMap fun lba =>
      (range 16).map fun k => ⟨lba, 32 * k⟩ := by
    unfold dirSlots sectors slots
    rw [flatMap_assoc]
  rw [hsectors, nodup_flatMap]
  refine ⟨fun lba _ => nodup_range.map fun a b h => ?_,
    (nodup_sectors hg hl hvol).imp fun {a b} hne s ha hb => hne ?_⟩
  · have hoffset := congrArg Slot.offset h
    dsimp only at hoffset
    omega
  · obtain ⟨i, -, rfl⟩ := mem_map.mp ha
    obtain ⟨j, -, heq⟩ := mem_map.mp hb
    exact (congrArg Slot.lba heq).symm

theorem eq_of_names (hg : m.Geometry) (hok : m.ChainsOk d) {c' : ℕ} {l' : List ℕ}
    (hc : m.DirHead d c) (hc' : m.DirHead d c') (hl : m.ClusterChain d c l)
    (hl' : m.ClusterChain d c' l') {p q : NamedEntry} (hp : p ∈ m.names d l)
    (hq : q ∈ m.names d l') (h : p.slot = q.slot) : p = q := by
  have hvol : ∀ {c l}, m.DirHead d c → m.ClusterChain d c l → ∀ a ∈ l, m.OnVolume a := by
    intro c l hc hl
    obtain ⟨l₀, hl₀, -, hvol⟩ := hok.chain (.dir c) hc
    exact Chain.unique hl hl₀ ▸ hvol
  have hlba : ∀ {l : List ℕ} {p}, p ∈ m.names d l → p.slot.lba ∈ m.sectors l := by
    intro l p hp
    obtain ⟨a, ha, hs⟩ := mem_flatMap.mp (slots_namedEntries.subset (mem_map_of_mem hp))
    obtain ⟨lba, hlba, hk⟩ := mem_flatMap.mp hs
    obtain ⟨k, -, hk⟩ := mem_map.mp hk
    rw [mem_sectors, ← hk]
    exact ⟨a, ha, hlba⟩
  by_cases heq : c = c'
  · subst heq
    obtain rfl := Chain.unique hl hl'
    exact eq_of_slot (nodup_dirSlots hg (Chain.nodup hl) (hvol hc hl)) hp hq h
  · have hdisj := hok.disjoint (.dir c) (.dir c') hc hc' (by simpa using heq) l l' hl hl'
    exact absurd (h ▸ hlba hq) (disjoint_sectors hg (hvol hc hl) (hvol hc' hl') hdisj (hlba hp))

variable (m d) in
def ListsAs (dir : Bytes) (maxEntries : ℕ) (entries : List VfsDirEntry) : Prop :=
  ∃ N, ∀ n ≥ N, (Fat32Scan.fat32Readdir m d n dir maxEntries).Yields (.ok entries)

theorem ListsAs.unique {maxEntries : ℕ} {entries entries' : List VfsDirEntry}
    (h : m.ListsAs d dir maxEntries entries) (h' : m.ListsAs d dir maxEntries entries') :
    entries = entries' := by
  obtain ⟨N, hN⟩ := h
  obtain ⟨N', hN'⟩ := h'
  exact Except.ok.inj
    ((hN (max N N') (Nat.le_max_left _ _)).unique (hN' (max N N') (Nat.le_max_right _ _)))

theorem listsAs_names (havail : m.available = true) (hdir : m.DirPath d dir c)
    (hl : m.ClusterChain d c l) (hlen : l.length < maxChain) (maxEntries : ℕ) :
    m.ListsAs d dir maxEntries (((m.names d l).take maxEntries).map (·.listed d)) := by
  refine ⟨maxChain, fun n hn => ?_⟩
  have hlist : (Fat32Scan.listClusters m d n c maxEntries).Yields _ :=
    yields_listClusters_names hl (by omega)
  unfold Fat32Scan.fat32Readdir
  rw [if_neg (by simp [havail])]
  rcases hdir with ⟨rfl, rfl⟩ | ⟨s, hs, hd, rfl⟩
  · exact yields_map.mpr ⟨_, hlist, rfl⟩
  · have hne : dir ≠ [slash] := by
      rintro rfl
      cases hs
    rw [if_neg hne]
    refine yields_bind.mpr ⟨some s, yields_findRootEntry hs hn, ?_⟩
    dsimp only
    rw [if_neg (by simp [hd])]
    exact yields_map.mpr ⟨_, hlist, rfl⟩

variable (m d) in
/-- What is listed in the directory is found below its path, with the type and the size listed, and
what is found there is listed if there is room for it. -/
structure ListingAgrees (dir : Bytes) (l : List ℕ) : Prop where
  listed : ∀ maxEntries, ∃ entries, m.ListsAs d dir maxEntries entries ∧
    ∀ e ∈ entries, ∃ p ∈ m.names d l, e = p.listed d ∧
      m.findRootEntry d (dir ++ slash :: e.name.chars) = some (some p.slot) ∧
      ∃ st, m.fat32Stat d (dir ++ slash :: e.name.chars) = some (.ok st) ∧
        st.type = e.type ∧ st.size = e.size
  found : ∀ name st, name ≠ [] → slash ∉ name →
    m.fat32Stat d (dir ++ slash :: name) = some (.ok st) →
      ∃ k, ∀ maxEntries ≥ k, ∃ entries, m.ListsAs d dir maxEntries entries ∧
        ∃ e ∈ entries, streq e.name.chars name = true ∧ e.type = st.type ∧ e.size = st.size

theorem fat32Stat_of_found (havail : m.available = true) (hpath : path ≠ [slash])
    (h : m.findRootEntry d path = some (some s)) :
    m.fat32Stat d path = some (.ok ⟨entryToName (entryAt d s),
      if (entryAt d s).isDirectory then .directory else .file, (entryAt d s).fileSize⟩) := by
  rw [fat32Stat, if_neg (by simp [havail]), if_neg hpath, h]
  rfl

/-- For a directory of a sound volume whose names are short enough to be listed and differ in more
than case. -/
theorem listing_agrees_iff (m : Fat32Mount) (d : Disk) (dir : Bytes) (c : ℕ) (l : List ℕ)
    (hg : m.Geometry) (hok : m.ChainsOk d) (havail : m.available = true)
    (hdir : m.DirPath d dir c) (hl : m.ClusterChain d c l) (hlen : l.length < maxChain)
    (hshort : ∀ p ∈ m.names d l, p.name.length ≤ 63)
    (hdistinct : ∀ p ∈ m.names d l, ∀ q ∈ m.names d l, streq p.name q.name = true → p = q) :
    m.ListingAgrees d dir l ↔ ∀ p ∈ m.names d l, 2 ≤ c ∧ p.name ≠ [] ∧ slash ∉ p.name := by
  obtain ⟨found, hbelow⟩ := hdir.findRootEntry_below hok
  have hlong : ∀ {name : Bytes}, name ≠ [] → dir ++ slash :: name ≠ [slash] := by
    intro name hne heq
    have hlength := congrArg List.length heq
    rw [length_append, length_cons, length_singleton] at hlength
    exact hne (length_eq_zero_iff.mp (by omega))
  have hlookup : ∀ {name : Bytes}, 2 ≤ c → name ≠ [] → slash ∉ name →
      m.findRootEntry d (dir ++ slash :: name) =
        some (((m.names d l).find? fun p => streq p.name (name.take 255)).map (·.slot)) := by
    intro name hc hne hslash
    rw [hbelow, if_neg (by omega), splitOnP_of_notMem hslash, resolve_single hne,
      findEntryInCluster_names hl hlen]
  constructor
  · intro h p hp
    obtain ⟨entries, hlists, hall⟩ := h.listed (m.names d l).length
    obtain rfl := hlists.unique (listsAs_names havail hdir hl hlen _)
    rw [take_length] at hall
    obtain ⟨q, hq, heq, hfind, -⟩ := hall _ (mem_map_of_mem hp)
    have hc : 2 ≤ c := by
      by_contra hlow
      rw [hbelow, if_pos (by omega)] at hfind
      cases hfind
    have hend := hok.dirsEnd hg
    obtain ⟨c', l', hc', hl', t, ht, hslot, hne, hslash⟩ := proper_of_resolve hend .root
      (fun _ hs => by cases hs)
      (fun seg hseg hmem => by simpa using (of_mem_splitOnP hseg _ hmem).2) hfind
    obtain rfl := eq_of_names hg hok (hdir.dirHead hg hok hc) hc' hl hl' hq ht hslot.symm
    have hshown : p.name.map upper = q.name.map upper := by
      rw [← map_upper_shown hp (hshort p hp), ← map_upper_shown hq (hshort q hq)]
      exact congrArg (fun e : VfsDirEntry => e.name.chars.map upper) heq
    refine ⟨hc, fun hnil => hne ?_, fun hmem => hslash (slash_mem_of_map_upper hshown hmem)⟩
    rw [hnil] at hshown
    exact map_eq_nil_iff.mp hshown.symm
  · intro hcond
    refine ⟨fun maxEntries => ⟨_, listsAs_names havail hdir hl hlen maxEntries, ?_⟩,
      fun name st hne hslash hst => ⟨(m.names d l).length, fun maxEntries hmax => ⟨_,
        listsAs_names havail hdir hl hlen maxEntries, ?_⟩⟩⟩
    · intro e he
      obtain ⟨p, hp, rfl⟩ := mem_map.mp he
      have hp := mem_of_mem_take hp
      obtain ⟨hc, hne, hslash⟩ := hcond p hp
      have hshown := map_upper_shown hp (hshort p hp)
      have hne' : p.shown.chars ≠ [] := by
        intro hnil
        rw [hnil] at hshown
        exact hne (map_eq_nil_iff.mp hshown.symm)
      have hfirst : (m.names d l).find? (fun q => streq q.name (p.shown.chars.take 255)) =
          some p := by
        rw [take_of_length_le (by have := p.shown.length_lt; omega)]
        cases hq : (m.names d l).find? (fun q => streq q.name p.shown.chars) with
        | none => exact absurd (streq_iff.mpr hshown.symm) (find?_eq_none.mp hq p hp)
        | some q =>
          have hname : q.name.map upper = p.shown.chars.map upper := streq_iff.mp
            (find?_some (p := fun q : NamedEntry => streq q.name p.shown.chars) hq)
          exact congrArg some (hdistinct q (mem_of_find?_eq_some hq) p hp
            (streq_iff.mpr (hname.trans hshown)))
      have hfind : m.findRootEntry d (dir ++ slash :: (p.listed d).name.chars) =
          some (some p.slot) := by
        refine (hlookup hc hne' fun hmem => hslash (slash_mem_of_map_upper hshown hmem)).trans ?_
        rw [hfirst]
        rfl
      exact ⟨p, hp, rfl, hfind, _, fat32Stat_of_found havail (hlong hne') hfind, rfl, rfl⟩
    · rcases hfind : m.findRootEntry d (dir ++ slash :: name) with _ | _ | s
      · rw [fat32Stat, if_neg (by simp [havail]), if_neg (hlong hne), hfind] at hst
        cases hst
      · rw [fat32Stat, if_neg (by simp [havail]), if_neg (hlong hne), hfind] at hst
        cases hst
      rw [fat32Stat_of_found havail (hlong hne) hfind] at hst
      have hc : 2 ≤ c := by
        by_contra hlow
        rw [hbelow, if_pos (by omega)] at hfind
        cases hfind
      rw [hlookup hc hne hslash, some_inj, map_eq_some_iff] at hfind
      obtain ⟨p, hp, rfl⟩ := hfind
      have hmem := mem_of_find?_eq_some hp
      have hname : p.name.map upper = (name.take 255).map upper :=
        streq_iff.mp (find?_some (p := fun p : NamedEntry => streq p.name _) hp)
      have hlength := congrArg List.length hname
      rw [length_map, length_map, length_take] at hlength
      have hp63 := hshort p hmem
      rw [take_of_length_le (by omega)] at hname
      rw [take_of_length_le hmax]
      refine ⟨p.listed d, mem_map_of_mem hmem, ?_, ?_⟩
      · exact streq_iff.mpr ((map_upper_shown hmem hp63).trans hname)
      · cases hst
        exact ⟨rfl, rfl⟩

theorem listing_of_one_file_agrees : smallMount.ListingAgrees oneFileDisk [slash] [2] := by
  refine (listing_agrees_iff smallMount oneFileDisk [slash] 2 [2] smallMount_geometry
    oneFile_oneFileDisk.chainsOk (by decide) (.inl ⟨rfl, rfl⟩) oneFile_oneFileDisk.1.1 (by decide)
    ?_ ?_).mpr ?_
  all_goals decide

/-- The long name `a`, `b` with U+012F between them. -/
def slashNameDisk : Disk :=
  smallDisk [0x0FFFFFF8, 0x0FFFFFFF, 0x0FFFFFFF, 0x0FFFFFFF]
    ([0x41, 0x61, 0, 0x2F, 1, 0x62, 0, 0, 0, 0xFF, 0xFF, 0x0F, 0, 0x40] ++ replicate 12 0xFF ++
      [0, 0, 0xFF, 0xFF, 0xFF, 0xFF] ++ fileEntry (bytes "A_B~1      ") 3 1)

/-- The file is listed with a slash in its name and not found under that name. -/
theorem slash_name_not_found : smallMount.Geometry ∧ smallMount.ChainsOk slashNameDisk ∧
      (∃ e, smallMount.ListsAs slashNameDisk [slash] 1 [e] ∧ e.name.chars = bytes "a/b" ∧
        e.type = .file ∧ e.size = 1) ∧
      smallMount.fat32Stat slashNameDisk (bytes "//a/b") = some (.error vfsENOENT) ∧
      ¬ smallMount.ListingAgrees slashNameDisk [slash] [2] := by
  have hone : smallMount.OneFile slashNameDisk [2] ⟨2, 32⟩ [3] := by decide
  have hlists : smallMount.ListsAs slashNameDisk [slash] 1 _ :=
    listsAs_names (by decide) (.inl ⟨rfl, rfl⟩) hone.1.1 (by decide) 1
  refine ⟨smallMount_geometry, ?_, ?_, by decide, fun h => ?_⟩
  · exact hone.chainsOk
  · exact ⟨_, hlists, by decide⟩
  · obtain ⟨entries, hentries, hall⟩ := h.listed 1
    obtain rfl := hentries.unique hlists
    obtain ⟨p, -, -, hfind, -⟩ := hall _ mem_cons_self
    cases hfind

end Agreement
end Fat32Mount
end SageOS
