import SageOS.Fat32Integrity
import SageOS.Fat32Listing
import SageOS.Fat32NameCells
import SageOS.LoopRounds

/-!
# Long names stay in their buffers

As long as every part of a long name that is used has been supplied, the scanners with checked
arrays take the same steps as the scanners over an array that starts with zeros, and the names of
listed entries are terminated. A listing with room for all entries comes to the first entry for
which something is missing, and ends there with a fault.
-/
namespace SageOS
open LinkedChain LocalArray List NameBuffer

theorem findMark_eq (k : ℕ) (hk : k < 20) : findMark (k * 13) = some (k * 13) :=
  congrArg some (Nat.min_eq_left (show k * 13 ≤ 255 by omega))

theorem listMark_eq (k : ℕ) (hk : k < 20) : listMark (k * 13) = some (k * 13) :=
  if_pos (show k * 13 < 256 by omega)

section Steps
variable {d : Disk} {s : Slot} {b : NameBuffer} {ln : LongName}

theorem findStep_together {name : Bytes} (hname : 0 ∉ name) (hshort : b.Short)
    (hag : b.Agrees ln) (hallow : entryAt d s 0 = 0 ∨ b.Allows (entryAt d s)) :
    Together (fun r r' => r = some r')
      (fun b' ln' => entryAt d s 0 ≠ 0 ∧ b' = b.feed (entryAt d s) ∧ b'.Agrees ln')
      (findStepChecked d name b s) (findStep d name ln s) := by
  unfold findStepChecked findStep
  by_cases hzero : entryAt d s 0 = 0
  · rw [if_pos hzero, if_pos hzero]
    exact rfl
  have hallow := hallow.resolve_left hzero
  rw [if_neg hzero, if_neg hzero]
  unfold feed
  by_cases hdeleted : entryAt d s 0 = 0xE5
  · rw [if_pos hdeleted, if_pos hdeleted, if_pos hdeleted]
    exact ⟨hzero, rfl, rfl, hag.2⟩
  have hallow := hallow hdeleted
  rw [if_neg hdeleted, if_neg hdeleted, if_neg hdeleted]
  by_cases hlong : (entryAt d s).attr = 0x0F
  · rw [if_pos hlong] at hallow
    rw [if_pos hlong, if_pos hlong, if_pos hlong, storeChars_eq findMark findMark_eq hallow]
    exact ⟨hzero, rfl, hag.store hallow⟩
  · rw [if_neg hlong] at hallow
    rw [if_neg hlong, if_neg hlong, if_neg hlong]
    obtain ⟨entryName, hrun, hholds⟩ := NameBuffer.findName_eq (e := entryAt d s) hshort hallow
    have htext : ln.entryName (entryAt d s) =
        if b.active then b.text else cstring (entryAt d s).shortName := by
      unfold LongName.entryName
      rw [← hag.1]
      split_ifs with hactive
      · exact hag.text (hallow hactive)
      · rfl
    rw [hrun, htext]
    change Together _ _ (streqCells entryName 0 name >>= _) _
    rw [streqCells_of_holds hholds hname]
    cases streq (if b.active = true then b.text else cstring (entryAt d s).shortName) name with
    | true => exact rfl
    | false => exact ⟨hzero, rfl, hag.clear hallow⟩

/-- The checked entry is the listed one, with a terminated name in its 64 bytes. -/
structure Shows (c : CheckedEntry) (e : VfsDirEntry) : Prop where
  name : Holds 64 c.name 0 e.name.chars
  type : c.type = e.type
  size : c.size = e.size

structure Advance (d : Disk) (maxEntries : ℕ) (s : Slot) (st : CheckedListing)
    (lst : Fat32Scan.Listing) (st' : CheckedListing) (lst' : Fat32Scan.Listing) : Prop where
  agrees : st'.buffer.Agrees lst'.ln
  entries : ∃ new new', st'.entries = st.entries ++ new ∧ lst'.entries = lst.entries ++ new' ∧
    List.Forall₂ Shows new new' ∧ new.length ≤ 1
  buffer : maxEntries ≤ st.entries.length ∧ st' = st ∨
    ¬ maxEntries ≤ st.entries.length ∧ entryAt d s 0 ≠ 0 ∧
      st'.buffer = st.buffer.feed (entryAt d s)

theorem listStep_together {maxEntries : ℕ} {st : CheckedListing} {lst : Fat32Scan.Listing}
    (hshort : st.buffer.Short) (hag : st.buffer.Agrees lst.ln)
    (hlen : st.entries.length = lst.entries.length)
    (hallow : maxEntries ≤ st.entries.length ∨ entryAt d s 0 = 0 ∨ st.buffer.Allows (entryAt d s)) :
    Together (fun r r' => entryAt d s 0 = 0 ∧ r = some st ∧ r' = lst)
      (Advance d maxEntries s st lst) (listStepChecked d maxEntries st s)
      (Fat32Scan.listStep d maxEntries lst s) := by
  unfold listStepChecked Fat32Scan.listStep
  rw [← hlen]
  by_cases hfull : maxEntries ≤ st.entries.length
  · rw [if_pos hfull, if_pos hfull]
    exact ⟨hag, ⟨[], [], by simp, by simp, .nil, by simp⟩, .inl ⟨hfull, rfl⟩⟩
  rw [if_neg hfull, if_neg hfull]
  by_cases hzero : entryAt d s 0 = 0
  · rw [if_pos hzero, if_pos hzero]
    exact ⟨hzero, rfl, rfl⟩
  have hallow := (hallow.resolve_left hfull).resolve_left hzero
  rw [if_neg hzero, if_neg hzero]
  by_cases hdeleted : entryAt d s 0 = 0xE5
  · rw [if_pos hdeleted, if_pos hdeleted]
    refine ⟨⟨rfl, hag.2⟩, ⟨[], [], by simp, by simp, .nil, by simp⟩, .inr ⟨hfull, hzero, ?_⟩⟩
    unfold feed
    rw [if_pos hdeleted]
  have hallow := hallow hdeleted
  rw [if_neg hdeleted, if_neg hdeleted]
  by_cases hlong : (entryAt d s).attr = 0x0F
  · rw [if_pos hlong] at hallow
    rw [if_pos hlong, if_pos hlong, storeChars_eq listMark listMark_eq hallow,
      lfnToName_eq_store _ hallow]
    refine ⟨hag.store hallow, ⟨[], [], by simp, by simp, .nil, by simp⟩, .inr ⟨hfull, hzero, ?_⟩⟩
    unfold feed
    rw [if_neg hdeleted, if_pos hlong]
  · rw [if_neg hlong] at hallow
    obtain ⟨name, hrun, hholds⟩ := listName_eq (e := entryAt d s) hshort hallow
    rw [if_neg hlong, if_neg hlong, hrun]
    refine ⟨hag.clear hallow, ⟨_, _, rfl, rfl, .cons ⟨?_, rfl, rfl⟩ .nil, le_rfl⟩,
      .inr ⟨hfull, hzero, ?_⟩⟩
    · rw [← hag.1]
      cases hactive : st.buffer.active with
      | true =>
        rw [hactive] at hholds
        rw [if_pos rfl, hag.text (hallow hactive)]
        exact hholds
      | false =>
        rw [hactive] at hholds
        exact hholds
    · unfold feed
      rw [if_neg hdeleted, if_neg hlong]
      rfl

end Steps

theorem agrees_empty : ({} : NameBuffer).Agrees {} := ⟨rfl, nofun⟩

theorem short_empty : ({} : NameBuffer).Short := nofun

namespace Fat32Mount
variable (m : Fat32Mount) (d : Disk)

/-- The entries of the clusters that the first `n` rounds come to. -/
def dirEntries (n c : ℕ) : List DirEntry :=
  ((visited (m.readFatEntry d) fat32IsEndOfChain n c).flatMap m.slots).map (entryAt d)

/-- Both scanners keep to their arrays, whatever they look for, and listed names are terminated. -/
structure NamesSafe (c : ℕ) : Prop where
  find : ∀ n name, 0 ∉ name → m.findChecked d n c name ≠ some fault
  list : ∀ n maxEntries, m.listChecked d n c maxEntries ≠ some fault
  terminated : ∀ n maxEntries st,
    m.listChecked d n c maxEntries = some (pure st) ∨
      m.listChecked d n c maxEntries = some (leave st) →
    ∀ e ∈ st.entries, ∃ name, Holds 64 e.name 0 name

variable {m d} {c n maxEntries : ℕ} {name : Bytes}

def FindRel (d : Disk) (l : List Slot) (b : NameBuffer) (ln : LongName) : Prop :=
  b.Agrees ln ∧ b.Short ∧ Supplied b (l.map (entryAt d))

theorem find_round (hname : 0 ∉ name) (s : Slot) (l : List Slot) (b : NameBuffer) (ln : LongName)
    (h : FindRel d (s :: l) b ln) : Together (fun r r' => r = some r') (FindRel d l)
      (findStepChecked d name b s) (findStep d name ln s) := by
  obtain ⟨hag, hshort, hsup⟩ := h
  refine (findStep_together hname hshort hag (hsup.imp_right And.left)).mono (fun _ _ h => h) ?_
  rintro b' ln' ⟨hzero, rfl, hag'⟩
  obtain ⟨hallow, hrest⟩ := hsup.resolve_left hzero
  exact ⟨hag', short_feed hshort hallow, hrest⟩

theorem find_together (hname : 0 ∉ name) (h : Supplied {} (m.dirEntries d n c)) :
    (m.findChecked d n c name = none ∧ Fat32Scan.searchDir m d n c name = none) ∨
      ∃ x y, m.findChecked d n c name = some x ∧ Fat32Scan.searchDir m d n c name = some y ∧
        Together (fun r r' => r = some r') (FindRel d []) x y := by
  refine walk_together (fun l => FindRel d (l.flatMap m.slots)) (fun a l b ln hrel => ?_)
    ⟨agrees_empty, short_empty, h⟩
  exact foldlM_together (FindRel d) (find_round hname) hrel

/-- The two listings with what they still have to scan, unless they are full. -/
def ListRel (d : Disk) (maxEntries : ℕ) (l : List Slot) (st : CheckedListing)
    (lst : Fat32Scan.Listing) : Prop :=
  st.buffer.Agrees lst.ln ∧ st.buffer.Short ∧ List.Forall₂ Shows st.entries lst.entries ∧
    (maxEntries ≤ st.entries.length ∨ Supplied st.buffer (l.map (entryAt d)))

def SameListing (r : Option CheckedListing) (lst : Fat32Scan.Listing) : Prop :=
  ∃ st, r = some st ∧ List.Forall₂ Shows st.entries lst.entries

theorem list_round (s : Slot) (l : List Slot) (st : CheckedListing) (lst : Fat32Scan.Listing)
    (h : ListRel d maxEntries (s :: l) st lst) : Together SameListing (ListRel d maxEntries l)
      (listStepChecked d maxEntries st s) (Fat32Scan.listStep d maxEntries lst s) := by
  obtain ⟨hag, hshort, hshows, hsup⟩ := h
  refine (listStep_together hshort hag hshows.length_eq
    (hsup.imp_right (Or.imp_right And.left))).mono ?_ ?_
  · rintro r r' ⟨-, rfl, rfl⟩
    exact ⟨st, rfl, hshows⟩
  · intro st' lst' hadv
    obtain ⟨new, new', hnew, hnew', hshows', -⟩ := hadv.entries
    have hentries : List.Forall₂ Shows st'.entries lst'.entries := by
      rw [hnew, hnew']
      exact rel_append hshows hshows'
    rcases hadv.buffer with ⟨hfull, rfl⟩ | ⟨hroom, hzero, hfeed⟩
    · exact ⟨hadv.agrees, hshort, hentries, .inl hfull⟩
    · obtain ⟨hallow, hrest⟩ := (hsup.resolve_left hroom).resolve_left hzero
      refine ⟨hadv.agrees, ?_, hentries, .inr ?_⟩
      · rw [hfeed]
        exact short_feed hshort hallow
      · rw [hfeed]
        exact hrest

theorem list_together (maxEntries : ℕ) (h : Supplied {} (m.dirEntries d n c)) :
    (m.listChecked d n c maxEntries = none ∧ Fat32Scan.listWalk m d maxEntries n c {} = none) ∨
      ∃ x y, m.listChecked d n c maxEntries = some x ∧
        Fat32Scan.listWalk m d maxEntries n c {} = some y ∧
        Together SameListing (ListRel d maxEntries []) x y := by
  refine walk_together (fun l => ListRel d maxEntries (l.flatMap m.slots))
    (fun a l st lst hrel => ?_) ⟨agrees_empty, short_empty, .nil, .inr h⟩
  unfold Fat32Scan.listBody
  rw [← hrel.2.2.1.length_eq]
  split_ifs
  · exact ⟨st, rfl, hrel.2.2.1⟩
  · exact foldlM_together (ListRel d maxEntries) list_round hrel

theorem exists_holds_of_shows {entries : List CheckedEntry} {shown : List VfsDirEntry}
    (h : List.Forall₂ Shows entries shown) {e : CheckedEntry} (he : e ∈ entries) :
    ∃ name, Holds 64 e.name 0 name := by
  induction h with
  | nil => cases he
  | cons hshow _ ih =>
    rcases mem_cons.mp he with rfl | he
    · exact ⟨_, hshow.name⟩
    · exact ih he

theorem namesSafe_of_supplied (h : ∀ n, Supplied {} (m.dirEntries d n c)) : m.NamesSafe d c := by
  constructor
  · intro n name hname hfault
    rcases find_together hname (h n) with ⟨hnone, -⟩ | ⟨x, y, hx, -, hxy⟩
    · rw [hnone] at hfault
      cases hfault
    · rw [hx] at hfault
      obtain rfl := Option.some.inj hfault
      rcases together_iff.mp hxy with ⟨r, r', hr, -, heq⟩ | ⟨b, -, hb, -⟩
      · cases hr
        cases heq
      · cases hb
  · intro n maxEntries hfault
    rcases list_together maxEntries (h n) with ⟨hnone, -⟩ | ⟨x, y, hx, -, hxy⟩
    · rw [hnone] at hfault
      cases hfault
    · rw [hx] at hfault
      obtain rfl := Option.some.inj hfault
      rcases together_iff.mp hxy with ⟨r, r', hr, -, st, heq, -⟩ | ⟨b, -, hb, -⟩
      · cases hr
        cases heq
      · cases hb
  · intro n maxEntries st hst e he
    rcases list_together maxEntries (h n) with ⟨hnone, -⟩ | ⟨x, y, hx, -, hxy⟩
    · rw [hnone] at hst
      rcases hst with h | h <;> cases h
    · rw [hx] at hst
      rcases hst with h | h
      · obtain rfl := Option.some.inj h
        rcases together_iff.mp hxy with ⟨r, r', hr, -⟩ | ⟨st', lst, hr, -, hrel⟩
        · cases hr
        · cases hr
          exact exists_holds_of_shows hrel.2.2.1 he
      · obtain rfl := Option.some.inj h
        rcases together_iff.mp hxy with ⟨r, r', hr, -, st', heq, hshows⟩ | ⟨st', lst, hr, -⟩
        · cases hr
          cases heq
          exact exists_holds_of_shows hshows he
        · cases hr

section Faults
variable {s : Slot} {st : CheckedListing}

theorem allows_of_noFault (hshort : st.buffer.Short) (hroom : ¬ maxEntries ≤ st.entries.length)
    (hzero : entryAt d s 0 ≠ 0) (h : NoFault (listStepChecked d maxEntries st s)) :
    st.buffer.Allows (entryAt d s) := by
  intro hdeleted
  unfold listStepChecked at h
  rw [if_neg hroom, if_neg hzero, if_neg hdeleted] at h
  by_cases hlong : (entryAt d s).attr = 0x0F
  · rw [if_pos hlong] at h ⊢
    intro horder
    rw [storeChars_fault listMark horder] at h
    exact h rfl
  · rw [if_neg hlong] at h ⊢
    intro hactive
    by_contra hnone
    rw [Option.not_isSome_iff_eq_none] at hnone
    rw [listName_fault hshort hactive hnone] at h
    exact h rfl

theorem listStep_cases (hshort : st.buffer.Short) (hroom : ¬ maxEntries ≤ st.entries.length)
    (h : NoFault (listStepChecked d maxEntries st s)) :
    entryAt d s 0 = 0 ∧ listStepChecked d maxEntries st s = leave st ∨
      st.buffer.Allows (entryAt d s) ∧ ∃ st', listStepChecked d maxEntries st s = .ok st' ∧
        st'.buffer = st.buffer.feed (entryAt d s) ∧
        st'.entries.length ≤ st.entries.length + 1 := by
  by_cases hzero : entryAt d s 0 = 0
  · refine .inl ⟨hzero, ?_⟩
    unfold listStepChecked
    rw [if_neg hroom, if_pos hzero]
  · have hallow := allows_of_noFault hshort hroom hzero h
    let lst : Fat32Scan.Listing := ⟨⟨fun i => (st.buffer.cells i).getD 0, st.buffer.active⟩,
      replicate st.entries.length ⟨strncpy 64 [], .file, 0⟩⟩
    have hag : st.buffer.Agrees lst.ln := ⟨rfl, fun i c hc => by simp [lst, hc]⟩
    rcases together_iff.mp (listStep_together hshort hag (by simp [lst]) (.inr (.inr hallow))) with
      ⟨-, -, -, -, hmark, -⟩ | ⟨st', lst', hst', -, hadv⟩
    · exact absurd hmark hzero
    · obtain ⟨-, -, hfeed⟩ := hadv.buffer.resolve_left fun hfull => hroom hfull.1
      obtain ⟨new, -, hnew, -, -, hlen⟩ := hadv.entries
      refine .inr ⟨hallow, st', hst', hfeed, ?_⟩
      rw [hnew, length_append]
      omega

theorem supplied_of_fold {ss : List Slot} (es : List DirEntry) (hshort : st.buffer.Short)
    (hroom : st.entries.length + ss.length < maxEntries)
    (h : NoFault (ss.foldlM (listStepChecked d maxEntries) st)) :
    (∃ r, ss.foldlM (listStepChecked d maxEntries) st = leave r ∧
        Supplied st.buffer (ss.map (entryAt d) ++ es)) ∨
      ∃ st', ss.foldlM (listStepChecked d maxEntries) st = .ok st' ∧ st'.buffer.Short ∧
        st'.entries.length ≤ st.entries.length + ss.length ∧
        (Supplied st'.buffer es → Supplied st.buffer (ss.map (entryAt d) ++ es)) := by
  induction ss generalizing st with
  | nil => exact .inr ⟨st, rfl, hshort, le_rfl, fun h => h⟩
  | cons s ss ih =>
    rw [length_cons] at hroom
    rw [foldlM_cons] at h ⊢
    have hfirst : NoFault (listStepChecked d maxEntries st s) := by
      intro hfault
      rw [hfault] at h
      exact h rfl
    rcases listStep_cases hshort (by omega) hfirst with
      ⟨hzero, hleave⟩ | ⟨hallow, st', hst', hfeed, hlen⟩
    · rw [hleave]
      exact .inl ⟨st, rfl, .inl hzero⟩
    · rw [hst'] at h ⊢
      have hshort' : st'.buffer.Short := by
        rw [hfeed]
        exact short_feed hshort hallow
      rcases ih hshort' (by omega) h with ⟨r, hr, hsup⟩ | ⟨st'', hst'', hshort'', hlen', hsup⟩
      · rw [hfeed] at hsup
        exact .inl ⟨r, hr, .inr ⟨hallow, hsup⟩⟩
      · rw [hfeed] at hsup
        exact .inr ⟨st'', hst'', hshort'', by rw [length_cons]; omega,
          fun hes => .inr ⟨hallow, hsup hes⟩⟩

theorem supplied_of_clusters {l : List ℕ} (hshort : st.buffer.Short)
    (hroom : st.entries.length + (l.flatMap m.slots).length < maxEntries)
    (h : NoFault (l.foldlM (fun st c => if maxEntries ≤ st.entries.length then leave st
      else (m.slots c).foldlM (listStepChecked d maxEntries) st) st)) :
    Supplied st.buffer ((l.flatMap m.slots).map (entryAt d)) := by
  induction l generalizing st with
  | nil => trivial
  | cons c l ih =>
    rw [flatMap_cons, length_append] at hroom
    rw [foldlM_cons, if_neg (by omega)] at h
    have hfirst : NoFault ((m.slots c).foldlM (listStepChecked d maxEntries) st) := by
      intro hfault
      rw [hfault] at h
      exact h rfl
    rw [flatMap_cons, map_append]
    rcases supplied_of_fold ((l.flatMap m.slots).map (entryAt d)) hshort (by omega) hfirst with
      ⟨-, -, hsup⟩ | ⟨st', hst', hshort', hlen, hsup⟩
    · exact hsup
    · rw [hst'] at h
      exact hsup (ih hshort' (by omega) h)

end Faults

theorem namesSafe_iff (m : Fat32Mount) (d : Disk) (c : ℕ) :
    m.NamesSafe d c ↔ ∀ n, Supplied {} (m.dirEntries d n c) := by
  refine ⟨fun h n => ?_, namesSafe_of_supplied⟩
  let l := visited (m.readFatEntry d) fat32IsEndOfChain n c
  have hlist := h.list n ((l.flatMap m.slots).length + 1)
  have hroom : ({} : CheckedListing).entries.length + (l.flatMap m.slots).length <
      (l.flatMap m.slots).length + 1 := by
    change 0 + _ < _
    omega
  exact supplied_of_clusters short_empty hroom fun hfault => hlist (walk_eq_error_iff.mpr hfault)

/-- A root directory that starts with a long-name entry of this order byte and then has a file. -/
def longNameDisk (orderByte : UInt8) : Disk :=
  smallDisk [0x0FFFFFF8, 0x0FFFFFFF, 0x0FFFFFFF]
    (orderByte :: 0x61 :: replicate 9 0 ++ 0x0F :: replicate 20 0 ++
      fileEntry (bytes "A          ") 3 1)

/-- The last part of a name of 20 parts is stored behind the array, and a name whose first part is
missing is read from cells that were not written. -/
theorem long_name_leaves_buffer : smallMount.listChecked (longNameDisk 0x54) 1 2 1 = some fault ∧
      smallMount.findChecked (longNameDisk 0x54) 1 2 (bytes "a") = some fault ∧
      smallMount.listChecked (longNameDisk 0x42) 1 2 1 = some fault ∧
      smallMount.findChecked (longNameDisk 0x42) 1 2 (bytes "a") = some fault :=
  ⟨rfl, rfl, rfl, rfl⟩

end Fat32Mount
end SageOS
