import SageOS.Fat32Scan

/-!
# Directories that can be searched

The search for a name ends in every directory whose chain leads to an end of chain or to an entry
with an end mark, and no other directory can be searched for a name that it does not have. So every
path can be looked up exactly if all the directories that lookups open are of this kind. A directory
entry with a first cluster below 2 is never searched but may be listed; there the listing also ends
when the chain passes live entries again and again, since it stops at the given number of entries.
-/
namespace SageOS.Fat32Scan
open LinkedChain Counted List
section
variable {β σ : Type}

theorem yields_scan {f : σ → ℕ → Except β σ} {l : List ℕ} {s : σ} {r : Except β σ} :
    (scan f l s).Yields r ↔ l.foldlM f s = r := by
  induction l generalizing s with
  | nil => exact yields_pure
  | cons lba l ih =>
    rw [scan, yields_tick_bind, foldlM_cons]
    cases f s lba with
    | error b => exact yields_pure
    | ok s' => exact ih

theorem costs_scan (f : σ → ℕ → Except β σ) (l : List ℕ) (s : σ) : (scan f l s).Costs l.length := by
  induction l generalizing s with
  | nil => exact costs_pure _
  | cons lba l ih =>
    refine ((costs_tick 1).bind fun _ => ?_).mono (Nat.add_comm 1 l.length).le
    cases f s lba with
    | error b => exact costs_pure _
    | ok s' => exact ih s'

variable {next : σ → ℕ → ℕ} {body : σ → ℕ → Counted (Except β σ)}

theorem yields_followStep {body' : σ → ℕ → Except β σ}
    (hbody : ∀ s c, (body s c).Yields (body' s c)) {c : ℕ} {s : σ} {r : Except β σ ⊕ ℕ × σ}
    (hend : ¬ fat32IsEndOfChain c) : (followStep next body (c, s)).Yields r ↔ (match body' s c with
        | .error b => .inl (.error b)
        | .ok s' => .inr (next s' c, s')) = r := by
  unfold followStep
  rw [if_neg hend, yields_bind]
  constructor
  · intro ⟨b, hb, h⟩
    obtain rfl := hb.unique (hbody s c)
    cases hb' : body' s c with
    | error b => simpa [hb'] using h
    | ok s' => simpa [hb'] using h
  · intro h
    refine ⟨_, hbody s c, ?_⟩
    cases hb' : body' s c with
    | error b => simpa [hb'] using h
    | ok s' => simpa [hb'] using h

theorem yields_follow {body' : σ → ℕ → Except β σ}
    (hbody : ∀ s c, (body s c).Yields (body' s c)) {n c : ℕ} {s : σ} {r : Except β σ} :
    (follow next body n c s).Yields r ↔ walk next fat32IsEndOfChain body' n c s = some r := by
  unfold follow
  induction n generalizing c s with
  | zero => exact ⟨fun h => absurd h not_yields_loop_zero, nofun⟩
  | succ n ih =>
    rw [yields_loop_succ, walk]
    by_cases hend : fat32IsEndOfChain c
    · simp only [followStep, if_pos hend, yields_pure, Sum.inl.injEq, reduceCtorEq, false_and,
        exists_false, or_false, Option.some.injEq]
    · rw [if_neg hend]
      simp only [yields_followStep hbody hend]
      cases body' s c with
      | error b => simp
      | ok s' =>
        simp only [reduceCtorEq, false_or, Sum.inr.injEq, exists_eq_left']
        exact ih

theorem costs_follow {b : ℕ} (hbody : ∀ s c, (body s c).Costs b) (n c : ℕ) (s : σ) :
    (follow next body n c s).Costs (n * (b + 1)) := by
  refine costs_loop (fun t => ?_) n (c, s)
  refine (costs_pure _).ite ((hbody t.2 t.1).bind fun r => ?_)
  cases r with
  | error b => exact costs_pure _
  | ok s' => exact (costs_tick 1).bind_zero fun _ => costs_pure _

end

variable {m : Fat32Mount} {d : Disk} {n n' c : ℕ} {name : Bytes}

theorem length_lbas (m : Fat32Mount) (c : ℕ) : (m.lbas c).length = m.sectorsPerCluster := by
  unfold Fat32Mount.lbas
  rw [length_map, length_range]

theorem yields_scan_slots {β σ : Type} (f : σ → Slot → Except β σ) (s : σ) (c : ℕ) :
    (scan (fun s lba => (sectorSlots lba).foldlM f s) (m.lbas c) s).Yields
      ((m.slots c).foldlM f s) :=
  yields_scan.mpr (Fat32Mount.foldlM_flatMap sectorSlots f (m.lbas c) s)

def found : Except (Option Slot) LongName → Option Slot
  | .error r => r
  | .ok _ => none

def searchDir (m : Fat32Mount) (d : Disk) (n c : ℕ) (name : Bytes) :
    Option (Except (Option Slot) LongName) :=
  walk (fun _ => m.readFatEntry d) fat32IsEndOfChain
    (fun ln c => (m.slots c).foldlM (findStep d name) ln) n c {}

theorem yields_find {r : Option Slot} : (findEntryInCluster m d n c name).Yields r ↔
    ∃ w, searchDir m d n c name = some w ∧ found w = r := by
  unfold findEntryInCluster
  rw [yields_bind]
  refine exists_congr fun w => and_congr ?_ ?_
  · exact yields_follow fun ln c => yields_scan_slots (findStep d name) ln c
  · cases w with
    | error r' => exact yields_pure
    | ok ln => exact yields_pure

theorem find_mono {r : Option Slot} (h : (findEntryInCluster m d n c name).Yields r)
    (hn : n ≤ n') : (findEntryInCluster m d n' c name).Yields r := by
  obtain ⟨w, hw, hr⟩ := yields_find.mp h
  exact yields_find.mpr ⟨w, walk_mono hw hn, hr⟩

theorem find_unique {r r' : Option Slot} (h : (findEntryInCluster m d n c name).Yields r)
    (h' : (findEntryInCluster m d n' c name).Yields r') : r = r' :=
  (find_mono h (Nat.le_max_left n n')).unique (find_mono h' (Nat.le_max_right n n'))

theorem costs_find (hspc : m.sectorsPerCluster < 256) :
    (findEntryInCluster m d n c name).Costs (n * 256) := by
  have hscan : ∀ (ln : LongName) (c : ℕ), (scan (fun ln lba =>
      (sectorSlots lba).foldlM (findStep d name) ln) (m.lbas c) ln).Costs 255 :=
    fun ln c => (costs_scan _ _ ln).mono (by rw [length_lbas]; omega)
  have hfound : ∀ w : Except (Option Slot) LongName, (match w with
      | .error r => pure r
      | .ok _ => pure none : Counted (Option Slot)).Costs 0 := by
    intro w
    cases w with
    | error r => exact costs_pure _
    | ok ln => exact costs_pure _
  exact ((costs_follow hscan n c {}).bind hfound).mono (by omega)

def HasMark (m : Fat32Mount) (d : Disk) (c : ℕ) : Prop := ∃ s ∈ m.slots c, entryAt d s 0 = 0

/-- The chain from the cluster on leads to an end of chain or to an end mark. -/
def Bounded (m : Fat32Mount) (d : Disk) (c : ℕ) : Prop :=
  Reaches (m.readFatEntry d) (fun a => fat32IsEndOfChain a ∨ HasMark m d a) c

theorem lt_of_not_end {a : ℕ} (h : ¬ fat32IsEndOfChain a) : a < 2 ^ 28 := by
  unfold fat32IsEndOfChain at h
  omega

theorem Bounded.within (h : Bounded m d c) :
    ∃ k ≤ 2 ^ 28, fat32IsEndOfChain ((m.readFatEntry d)^[k] c) ∨
      HasMark m d ((m.readFatEntry d)^[k] c) :=
  Reaches.within id (fun _ ha => lt_of_not_end fun hend => ha (.inl hend))
    (fun _ _ hab _ _ => congrArg (m.readFatEntry d) hab) h

theorem exists_error_of_mem {α β σ : Type} {f : σ → α → Except β σ} {l : List α} {a : α}
    (ha : a ∈ l) (h : ∀ s, ∃ b, f s a = .error b) (s : σ) : ∃ b, l.foldlM f s = .error b := by
  induction l generalizing s with
  | nil => cases ha
  | cons x l ih =>
    rw [foldlM_cons]
    cases hx : f s x with
    | error b => exact ⟨b, rfl⟩
    | ok s' =>
      rcases mem_cons.mp ha with rfl | hmem
      · obtain ⟨b, hb⟩ := h s
        cases hx.symm.trans hb
      · exact ih hmem s'

theorem exists_find (h : Bounded m d c) (hn : maxChain ≤ n) (name : Bytes) :
    ∃ r, (findEntryInCluster m d n c name).Yields r := by
  obtain ⟨k, hk, hend⟩ := h.within
  have hleave : ∀ (ln : LongName) (a : ℕ), HasMark m d a →
      ∃ r, (m.slots a).foldlM (findStep d name) ln = .error r := by
    intro ln a ⟨s, hs, hzero⟩
    exact exists_error_of_mem hs (fun ln => ⟨none, if_pos hzero⟩) ln
  obtain ⟨w, hw⟩ : ∃ w, searchDir m d (k + 1) c name = some w :=
    exists_walk (m.readFatEntry d) (fun _ _ => rfl) hleave hend {}
  exact ⟨found w, yields_find.mpr ⟨w, walk_mono hw (by unfold maxChain at hn; omega), rfl⟩⟩

/-- A name that no entry has: it is too long for a short name and no long name has this byte. -/
def missing : Bytes := replicate 13 0xFF

theorem map_upper_of_streq {s t : Bytes} (h : streq s t = true) : s.map upper = t.map upper := by
  induction s generalizing t with
  | nil =>
    cases t with
    | nil => rfl
    | cons b t => cases h
  | cons a s ih =>
    cases t with
    | nil => cases h
    | cons b t =>
      obtain ⟨hab, hst⟩ := of_decide_eq_true h
      rw [map_cons, map_cons, hab, ih hst]

theorem length_shortName_le (e : DirEntry) : e.shortName.length ≤ 12 := by
  have hname : ([e 0, e 1, e 2, e 3, e 4, e 5, e 6, e 7].takeWhile (· ≠ 0x20)).length ≤ 8 :=
    (List.takeWhile_prefix _).length_le
  have hext : ([e 8, e 9, e 10].takeWhile (· ≠ 0x20)).length ≤ 3 :=
    (List.takeWhile_prefix _).length_le
  unfold DirEntry.shortName
  rw [length_append]
  split_ifs
  · rw [length_cons]
    omega
  · rw [length_nil]
    omega

theorem upper_ne {c : UInt8} (h : c ≠ 0xFF) : upper c ≠ 0xFF := by
  unfold upper
  split_ifs with hletter
  · obtain ⟨hlo, hhi⟩ := hletter
    intro heq
    have hge := UInt8.le_iff_toNat_le.mp hlo
    have hle := UInt8.le_iff_toNat_le.mp hhi
    have hc := congrArg UInt8.toNat heq
    rw [UInt8.toNat_sub] at hc
    simp only [UInt8.reduceToNat] at hc hge hle
    omega
  · exact h

theorem streq_missing (ln : LongName) (e : DirEntry) : streq (ln.entryName e) missing = false := by
  rw [Bool.eq_false_iff]
  intro h
  have hmap := map_upper_of_streq h
  unfold LongName.entryName at hmap
  split_ifs at hmap with hactive
  · have hhead : (0xFF : UInt8) ∈ ln.text.map upper := by
      rw [hmap]
      decide
    obtain ⟨b, hb, hupper⟩ := mem_map.mp hhead
    have hkept := mem_takeWhile_imp hb
    exact upper_ne (of_decide_eq_true hkept).2 hupper
  · have hlen := congrArg List.length hmap
    have hcut : (cstring e.shortName).length ≤ e.shortName.length :=
      (List.takeWhile_prefix _).length_le
    have hshort := length_shortName_le e
    rw [length_map, length_map, missing, length_replicate] at hlen
    omega

theorem foldlM_findStep_missing {l : List Slot} (h : ∀ s ∈ l, entryAt d s 0 ≠ 0) (ln : LongName) :
    ∃ ln', l.foldlM (findStep d missing) ln = .ok ln' := by
  induction l generalizing ln with
  | nil => exact ⟨ln, rfl⟩
  | cons s l ih =>
    have hrest := ih fun t ht => h t (mem_cons_of_mem s ht)
    rw [foldlM_cons]
    unfold findStep
    rw [if_neg (h s mem_cons_self), streq_missing]
    split_ifs
    all_goals first | exact hrest _ | contradiction

theorem not_yields_missing (h : ¬ Bounded m d c) (r : Option Slot) :
    ¬ (findEntryInCluster m d n c missing).Yields r := by
  intro hr
  obtain ⟨w, hw, -⟩ := yields_find.mp hr
  have hon : ∀ k, ¬ fat32IsEndOfChain ((m.readFatEntry d)^[k] c) ∧ ∀ ln, ∃ ln',
      (m.slots ((m.readFatEntry d)^[k] c)).foldlM (findStep d missing) ln = .ok ln' := by
    intro k
    refine ⟨fun hend => h ⟨k, .inl hend⟩, foldlM_findStep_missing fun s hs hzero => ?_⟩
    exact h ⟨k, .inr ⟨s, hs, hzero⟩⟩
  unfold searchDir at hw
  rw [walk_eq_none (m.readFatEntry d) (fun _ _ => rfl) hon ({} : LongName)] at hw
  cases hw

theorem length_splitOnP_le {α : Type} (p : α → Bool) (l : List α) :
    (l.splitOnP p).length ≤ l.length + 1 := by
  induction l with
  | nil => simp
  | cons x l ih =>
    rw [splitOnP_cons_eq_if_modifyHead]
    split_ifs
    · simpa using ih
    · rw [length_modifyHead, length_cons]
      omega

theorem of_mem_splitOnP {α : Type} {p : α → Bool} {l seg : List α} (h : seg ∈ l.splitOnP p) :
    ∀ x ∈ seg, x ∈ l ∧ p x = false := by
  induction l generalizing seg with
  | nil =>
    rw [splitOnP_nil, mem_singleton] at h
    simp [h]
  | cons a l ih =>
    have hrest : ∀ seg ∈ l.splitOnP p, ∀ x ∈ seg, x ∈ a :: l ∧ p x = false :=
      fun seg hseg x hx => ⟨mem_cons_of_mem a (ih hseg x hx).1, (ih hseg x hx).2⟩
    rw [splitOnP_cons_eq_if_modifyHead] at h
    split_ifs at h with hp
    · rcases mem_cons.mp h with rfl | hmem
      · simp
      · exact hrest seg hmem
    · cases hl : l.splitOnP p with
      | nil => exact absurd hl (splitOnP_ne_nil p l)
      | cons first segs =>
        rw [hl] at h hrest
        rcases mem_cons.mp h with rfl | hmem
        · intro x hx
          rcases mem_cons.mp hx with rfl | hx
          · exact ⟨mem_cons_self, by simpa using hp⟩
          · exact hrest first mem_cons_self x hx
        · exact hrest seg (mem_cons_of_mem first hmem)

structure IsName (name : Bytes) : Prop where
  ne_nil : name ≠ []
  length_le : name.length ≤ 255
  slash_notMem : slash ∉ name
  nul_notMem : 0 ∉ name

theorem isName_of_segment {path segment : Bytes} (hpath : 0 ∉ path)
    (h : segment ∈ path.splitOnP (· == slash)) (hne : segment ≠ []) :
    IsName (segment.take 255) where
  ne_nil := by simpa using hne
  length_le := by rw [length_take]; omega
  slash_notMem hmem := by simpa using (of_mem_splitOnP h _ (mem_of_mem_take hmem)).2
  nul_notMem hmem := hpath (of_mem_splitOnP h _ (mem_of_mem_take hmem)).1

variable (m d) in
def Finds (c : ℕ) (name : Bytes) (s : Slot) : Prop :=
  IsName name ∧ ∃ n, (findEntryInCluster m d n c name).Yields (some s)

variable (m d) in
/-- The first clusters of the directories in which lookups search. -/
inductive Opened : ℕ → Prop
  | root : Opened m.rootCluster
  | sub {c : ℕ} {name : Bytes} {s : Slot} (hc : Opened c) (hs : Finds m d c name s)
      (hdir : (entryAt d s).isDirectory = true) (hfirst : 2 ≤ (entryAt d s).firstCluster) :
      Opened (entryAt d s).firstCluster

variable (m d) in
/-- The entries to which paths lead. -/
def Named (s : Slot) : Prop := ∃ c name, Opened m d c ∧ Finds m d c name s

variable (m d) in
def DirsBounded : Prop := ∀ c, Opened m d c → Bounded m d c

theorem exists_resolve (h : DirsBounded m d) (hn : maxChain ≤ n) (hc : Opened m d c)
    {found : Option Slot} (hfound : ∀ s, found = some s → Named m d s) {parts : List Bytes}
    (hparts : ∀ segment ∈ parts, segment ≠ [] → IsName (segment.take 255)) :
    ∃ r, (resolve m d n c found parts).Yields r ∧ ∀ s, r = some s → Named m d s := by
  induction parts generalizing c found with
  | nil => exact ⟨found, .pure _, hfound⟩
  | cons segment rest ih =>
    have hrest := fun seg hseg => hparts seg (mem_cons_of_mem segment hseg)
    rw [resolve]
    by_cases hempty : segment = []
    · rw [if_pos hempty]
      exact ih hc hfound hrest
    rw [if_neg hempty]
    obtain ⟨r, hr⟩ := exists_find (h c hc) hn (segment.take 255)
    apply hr.exists_bind_and
    cases r with
    | none => exact ⟨none, .pure _, nofun⟩
    | some s =>
      have hs : Finds m d c (segment.take 255) s :=
        ⟨hparts segment mem_cons_self hempty, n, hr⟩
      have hthis : ∀ t, some s = some t → Named m d t := by
        intro t ht
        cases ht
        exact ⟨c, _, hc, hs⟩
      dsimp only
      split_ifs with hlast hdir hfirst
      · exact ⟨_, .pure _, hthis⟩
      · exact ⟨none, .pure _, nofun⟩
      · exact ⟨none, .pure _, nofun⟩
      · exact ih (.sub hc hs (by simpa using hdir) (by omega)) hthis hrest

theorem exists_findRootEntry (h : DirsBounded m d) (hn : maxChain ≤ n) {path : Bytes}
    (hpath : 0 ∉ path) :
    ∃ r, (findRootEntry m d n path).Yields r ∧ ∀ s, r = some s → Named m d s := by
  exact exists_resolve h hn .root (fun _ hs => by cases hs) fun _ hseg hne =>
    isName_of_segment hpath hseg hne

theorem Opened.exists_path (hc : Opened m d c) : ∃ path : Bytes, 0 ∉ path ∧
    ∀ (tail : Bytes) (n : ℕ) (r : Option Slot), (findRootEntry m d n (path ++ tail)).Yields r →
      ∃ found, (resolve m d n c found (tail.splitOnP (· == slash))).Yields r := by
  induction hc with
  | root => exact ⟨[], not_mem_nil, fun tail n r h => ⟨none, h⟩⟩
  | sub hc hs hdir hfirst ih =>
    rename_i c name s
    obtain ⟨path, hpath, hreach⟩ := ih
    obtain ⟨hname, k, hk⟩ := hs
    refine ⟨path ++ (name ++ [slash]), ?_, fun tail n r h => ⟨some s, ?_⟩⟩
    · simp [hpath, hname.nul_notMem, slash]
    rw [append_assoc] at h
    obtain ⟨found, hf⟩ := hreach _ n r h
    have hsplit : (name ++ [slash] ++ tail).splitOnP (· == slash) =
        name :: tail.splitOnP (· == slash) := by
      rw [append_assoc, singleton_append]
      refine splitOnP_append_cons_of_forall_mem (fun x hx => ?_) slash (by simp) tail
      have hne : x ≠ slash := fun heq => hname.slash_notMem (heq ▸ hx)
      simpa using hne
    rw [hsplit, resolve, if_neg hname.ne_nil, take_of_length_le hname.length_le, yields_bind] at hf
    obtain ⟨r', hr', hf⟩ := hf
    obtain rfl := find_unique hr' hk
    dsimp only at hf
    rwa [if_neg (splitOnP_ne_nil _ _), if_neg (by simp [hdir]), if_neg (by omega)] at hf

theorem bounded_of_lookups (h : ∀ path : Bytes, 0 ∉ path → path ≠ [slash] →
    ∃ n r, (findRootEntry m d n path).Yields r) : DirsBounded m d := by
  intro c hc
  by_contra hnot
  obtain ⟨path, hpath, hreach⟩ := hc.exists_path
  obtain ⟨n, r, hr⟩ := h (path ++ missing) (by simp [hpath, missing])
    (fun heq => by simpa [missing, slash] using congrArg (0xFF ∈ ·) heq)
  obtain ⟨found, hf⟩ := hreach missing n r hr
  rw [splitOnP_eq_singleton (by decide +kernel), resolve, if_neg (by decide +kernel),
    yields_bind] at hf
  obtain ⟨r', hr', -⟩ := hf
  exact not_yields_missing hnot r' hr'

end SageOS.Fat32Scan
