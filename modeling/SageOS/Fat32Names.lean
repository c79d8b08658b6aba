import SageOS.Fat32Listing
import SageOS.Fat32NameCells
import SageOS.Fat32Sectors

/-!
# The names of a directory

The entries of a directory in order, each with the name that lookups compare and the name that
listings show. A lookup finds the first entry whose name is the one looked up except for the case
of letters, a listing shows the first entries. The two names of an entry have the same letters if
they are short enough for a listing.
-/
namespace SageOS
open LinkedChain Counted List Function

structure NamedEntry where
  slot : Slot
  name : Bytes
  shown : CString 64
  deriving DecidableEq

def NamedEntry.listed (d : Disk) (p : NamedEntry) : VfsDirEntry where
  name := p.shown
  type := if (entryAt d p.slot).isDirectory then .directory else .file
  size := (entryAt d p.slot).fileSize

def namedEntries (d : Disk) : LongName → List Slot → List NamedEntry
  | _, [] => []
  | ln, s :: l =>
    if entryAt d s 0 = 0 then []
    else if entryAt d s 0 = 0xE5 then namedEntries d { ln with active := false } l
    else if (entryAt d s).attr = 0x0F then namedEntries d (ln.store (entryAt d s)) l
    else ⟨s, ln.entryName (entryAt d s),
      if ln.active then strncpy 64 ln.text else Fat32Mount.entryToName (entryAt d s)⟩ ::
        namedEntries d ln.clear l

def Fat32Mount.names (m : Fat32Mount) (d : Disk) (l : List ℕ) : List NamedEntry :=
  namedEntries d {} (m.dirSlots l)

theorem streq_iff {s t : Bytes} : streq s t = true ↔ s.map upper = t.map upper := by
  refine ⟨Fat32Scan.map_upper_of_streq, fun h => ?_⟩
  induction s generalizing t with
  | nil => rw [map_eq_nil_iff.mp h.symm]; rfl
  | cons a s ih =>
    cases t with
    | nil => cases h
    | cons b t =>
      obtain ⟨hab, hst⟩ := List.cons.inj h
      exact decide_eq_true ⟨hab, ih hst⟩

section Lookups
variable {d : Disk} {s : Slot} {l : List Slot} {ln : LongName} {p q : NamedEntry}

theorem slots_namedEntries : ((namedEntries d ln l).map (·.slot)).Sublist l := by
  fun_induction namedEntries d ln l with
  | case1 => exact .refl _
  | case2 => exact nil_sublist _
  | case3 _ _ _ _ _ ih => exact ih.cons _
  | case4 _ _ _ _ _ _ ih => exact ih.cons _
  | case5 _ _ _ _ _ _ ih => exact ih.cons_cons _

theorem eq_of_slot (hl : l.Nodup) (hp : p ∈ namedEntries d ln l) (hq : q ∈ namedEntries d ln l)
    (h : p.slot = q.slot) : p = q :=
  inj_on_of_nodup_map (slots_namedEntries.nodup hl) hp hq h

theorem foldlM_findStep (name : Bytes) : (match l.foldlM (findStep d name) ln with
      | .error r => some r
      | .ok _ => some none) =
      some (((namedEntries d ln l).find? fun p => streq p.name name).map (·.slot)) := by
  fun_induction namedEntries d ln l with
  | case1 => rfl
  | case2 ln s l h0 =>
    have hstep : findStep d name ln s = .error none := if_pos h0
    rw [foldlM_cons, hstep]
    rfl
  | case3 ln s l h0 h1 ih =>
    have hstep : findStep d name ln s = .ok { ln with active := false } := by
      rw [findStep, if_neg h0, if_pos h1]
    rw [foldlM_cons, hstep, ← ih]
    rfl
  | case4 ln s l h0 h1 h2 ih =>
    have hstep : findStep d name ln s = .ok (ln.store (entryAt d s)) := by
      rw [findStep, if_neg h0, if_neg h1, if_pos h2]
    rw [foldlM_cons, hstep, ← ih]
    rfl
  | case5 ln s l h0 h1 h2 ih =>
    rw [foldlM_cons, findStep, if_neg h0, if_neg h1, if_neg h2, find?_cons]
    by_cases hname : streq (ln.entryName (entryAt d s)) name = true
    · rw [if_pos hname, hname]
      rfl
    · rw [if_neg hname, Bool.eq_false_of_not_eq_true hname, ← ih]
      rfl

end Lookups

section Listings
variable {d : Disk} {l : List Slot} {ln ln' : LongName} {maxEntries : ℕ}

structure SameText (ln ln' : LongName) : Prop where
  active : ln.active = ln'.active
  buf : ∀ i < 255, ln.buf i = ln'.buf i

namespace SameText

theorem text (h : SameText ln ln') : ln.text = ln'.text := by
  unfold LongName.text
  rw [map_congr_left fun i hi => h.buf i (mem_range.mp hi)]

theorem clear (h : SameText ln ln') : SameText ln.clear ln'.clear where
  active := rfl
  buf i hi := by
    unfold LongName.clear
    rw [h.active, h.text]
    split_ifs
    · change update ln.buf _ 0 i = update ln'.buf _ 0 i
      rw [update_apply, update_apply, h.buf i hi]
    · exact h.buf i hi

theorem store (h : SameText ln ln') (e : DirEntry) :
    SameText (Fat32Scan.lfnToName ln e) (ln'.store e) := by
  unfold Fat32Scan.lfnToName LongName.store
  dsimp only
  split_ifs with horder hmark hend hend
  · refine ⟨rfl, fun i hi => ?_⟩
    simp only [update_apply, show min ((e 0 &&& 0x1F).toNat * 13) 255 =
      (e 0 &&& 0x1F).toNat * 13 by omega, h.buf i hi]
  · exact absurd hmark.1 hend
  · refine ⟨rfl, fun i hi => ?_⟩
    have hlast : i ≠ min ((e 0 &&& 0x1F).toNat * 13) 255 := by
      have := not_and.mp hmark hend
      omega
    simp only [update_apply, if_neg hlast, h.buf i hi]
  · exact ⟨rfl, fun i hi => by simp only [h.buf i hi]⟩
  · exact h

end SameText

namespace Fat32Scan
variable {st : Listing}

theorem foldlM_listStep_of_full (h : maxEntries ≤ st.entries.length) :
    l.foldlM (listStep d maxEntries) st = .ok st := by
  induction l with
  | nil => rfl
  | cons s l ih =>
    have hstep : listStep d maxEntries st s = .ok st := if_pos h
    rw [foldlM_cons, hstep]
    exact ih

theorem entries_foldlM_listStep (h : SameText st.ln ln) :
    (final (l.foldlM (listStep d maxEntries) st)).entries = st.entries ++
      ((namedEntries d ln l).take (maxEntries - st.entries.length)).map (·.listed d) := by
  by_cases hfull : maxEntries ≤ st.entries.length
  · rw [foldlM_listStep_of_full hfull, Nat.sub_eq_zero_of_le hfull]
    simp [final]
  fun_induction namedEntries d ln l generalizing st with
  | case1 => simp [final, pure, Except.pure]
  | case2 ln s l h0 =>
    have hstep : listStep d maxEntries st s = .error st := by
      rw [listStep, if_neg hfull, if_pos h0]
    rw [foldlM_cons, hstep]
    simp [final, bind, Except.bind]
  | case3 ln s l h0 h1 ih =>
    have hstep : listStep d maxEntries st s =
        .ok { st with ln := { st.ln with active := false } } := by
      rw [listStep, if_neg hfull, if_neg h0, if_pos h1]
    rw [foldlM_cons, hstep]
    exact ih ⟨rfl, h.buf⟩ hfull
  | case4 ln s l h0 h1 h2 ih =>
    have hstep : listStep d maxEntries st s =
        .ok { st with ln := lfnToName st.ln (entryAt d s) } := by
      rw [listStep, if_neg hfull, if_neg h0, if_neg h1, if_pos h2]
    rw [foldlM_cons, hstep]
    exact ih (h.store _) hfull
  | case5 ln s l h0 h1 h2 ih =>
    obtain ⟨k, hk⟩ : ∃ k, maxEntries - st.entries.length = k + 1 :=
      ⟨maxEntries - st.entries.length - 1, by omega⟩
    rw [hk, take_succ_cons, map_cons, append_cons]
    generalize hp : NamedEntry.listed d _ = p
    have hstep : listStep d maxEntries st s = .ok ⟨st.ln.clear, st.entries ++ [p]⟩ := by
      rw [listStep, if_neg hfull, if_neg h0, if_neg h1, if_neg h2, h.active, h.text, ← hp]
      rfl
    have hlen : (st.entries ++ [p]).length = st.entries.length + 1 := by simp
    rw [foldlM_cons, hstep]
    by_cases hlast : k = 0
    · change (final (l.foldlM (listStep d maxEntries) ⟨st.ln.clear, st.entries ++ [p]⟩)).entries = _
      rw [foldlM_listStep_of_full (by dsimp only; omega), hlast]
      simp [final]
    · refine (ih h.clear (by dsimp only; omega)).trans ?_
      rw [hlen, show maxEntries - (st.entries.length + 1) = k by omega]

theorem final_foldlM_listBody {m : Fat32Mount} (l : List ℕ) :
    final (l.foldlM (listBody m d maxEntries) st) =
      final ((m.dirSlots l).foldlM (listStep d maxEntries) st) := by
  induction l generalizing st with
  | nil => rfl
  | cons c l ih =>
    rw [foldlM_cons, Fat32Mount.dirSlots, flatMap_cons]
    by_cases hfull : maxEntries ≤ st.entries.length
    · rw [foldlM_listStep_of_full hfull, listBody, if_pos hfull]
      rfl
    rw [listBody_of_room (by omega), foldlM_append]
    cases (m.slots c).foldlM (listStep d maxEntries) st with
    | error st' => rfl
    | ok st' => exact ih

theorem yields_listClusters_names {m : Fat32Mount} {c n : ℕ} {l : List ℕ}
    (hl : m.ClusterChain d c l) (hlen : l.length < n) :
    (listClusters m d n c maxEntries).Yields
      (((m.names d l).take maxEntries).map (·.listed d)) := by
  refine yields_listClusters.mpr ⟨l.foldlM (listBody m d maxEntries) {}, ?_, ?_⟩
  · exact walk_chain (I := fun _ => True) hl hlen trivial (fun _ _ _ _ => rfl)
      fun _ _ _ _ _ _ => trivial
  · rw [final_foldlM_listBody]
    exact entries_foldlM_listStep ⟨rfl, fun _ _ => rfl⟩

end Fat32Scan
end Listings
end SageOS
