import SageOS.Fat32Bounded

/-!
# Listings of directories

A listing ends where the chain of the directory does: at an end of chain or at an end mark. On a
chain that never ends it still stops at the given number of entries, so it returns for every number
exactly if the chain also passes live entries again and again.
-/
namespace SageOS.Fat32Scan
open LinkedChain Counted List
variable {m : Fat32Mount} {d : Disk} {n c : ℕ}
section Listing

def Live (d : Disk) (s : Slot) : Prop :=
  entryAt d s 0 ≠ 0 ∧ entryAt d s 0 ≠ 0xE5 ∧ (entryAt d s).attr ≠ 0x0F

def HasLive (m : Fat32Mount) (d : Disk) (c : ℕ) : Prop := ∃ s ∈ m.slots c, Live d s

/-- The chain comes to an end, or it passes live entries again and again. -/
def Lists (m : Fat32Mount) (d : Disk) (c : ℕ) : Prop :=
  Bounded m d c ∨ ∀ k, ∃ j ≥ k, HasLive m d ((m.readFatEntry d)^[j] c)

variable {maxEntries : ℕ} {st st' : Listing} {s : Slot} {l : List Slot}

theorem length_listStep (h : listStep d maxEntries st s = .ok st') :
    st.entries.length ≤ st'.entries.length ∧ st'.entries.length ≤ st.entries.length + 1 := by
  unfold listStep at h
  split_ifs at h <;> obtain rfl := Except.ok.inj h <;> simp

theorem exists_listStep_of_cons (h : (s :: l).foldlM (listStep d maxEntries) st = .ok st') :
    ∃ st₁, listStep d maxEntries st s = .ok st₁ ∧
      l.foldlM (listStep d maxEntries) st₁ = .ok st' := by
  rw [foldlM_cons] at h
  cases hs : listStep d maxEntries st s with
  | error st₁ =>
    rw [hs] at h
    cases h
  | ok st₁ =>
    rw [hs] at h
    exact ⟨st₁, rfl, h⟩

theorem length_foldlM_listStep (h : l.foldlM (listStep d maxEntries) st = .ok st') :
    st.entries.length ≤ st'.entries.length ∧ st'.entries.length ≤ st.entries.length + l.length := by
  induction l generalizing st with
  | nil =>
    cases h
    simp
  | cons s l ih =>
    obtain ⟨st₁, hs, h⟩ := exists_listStep_of_cons h
    have hstep := length_listStep hs
    have hrest := ih h
    rw [length_cons]
    omega

theorem lt_of_foldlM_listStep (hmem : s ∈ l)
    (hs : entryAt d s 0 = 0 ∨ Live d s) (hroom : st.entries.length < maxEntries)
    (h : l.foldlM (listStep d maxEntries) st = .ok st') :
    st.entries.length < st'.entries.length := by
  induction l generalizing st with
  | nil => cases hmem
  | cons a l ih =>
    obtain ⟨st₁, ha, h⟩ := exists_listStep_of_cons h
    have hstep := length_listStep ha
    have hrest := length_foldlM_listStep h
    by_cases hgrown : st.entries.length < st₁.entries.length
    · omega
    have hmem' : s ∈ l := by
      rcases mem_cons.mp hmem with rfl | hmem
      · exfalso
        unfold listStep at ha
        rw [if_neg (by omega)] at ha
        rcases hs with hzero | ⟨h0, h1, h2⟩
        · rw [if_pos hzero] at ha
          cases ha
        · rw [if_neg h0, if_neg h1, if_neg h2] at ha
          obtain rfl := Except.ok.inj ha
          simp at hgrown
      · exact hmem
    have hnext := ih hmem' (by omega) h
    omega

theorem full_of_mark (hmem : s ∈ l) (hs : entryAt d s 0 = 0)
    (h : l.foldlM (listStep d maxEntries) st = .ok st') : maxEntries ≤ st'.entries.length := by
  induction l generalizing st with
  | nil => cases hmem
  | cons a l ih =>
    obtain ⟨st₁, ha, h⟩ := exists_listStep_of_cons h
    rcases mem_cons.mp hmem with rfl | hmem
    · have hrest := length_foldlM_listStep h
      have hstep := length_listStep ha
      by_contra hroom
      unfold listStep at ha
      rw [if_neg (by omega), if_pos hs] at ha
      cases ha
    · exact ih hmem h

theorem listStep_of_notMark (h0 : entryAt d s 0 ≠ 0) : ∃ st', listStep d maxEntries st s = .ok st' ∧
      (¬ Live d s → st'.entries.length = st.entries.length) := by
  unfold listStep
  by_cases hfull : maxEntries ≤ st.entries.length
  · exact ⟨st, if_pos hfull, fun _ => rfl⟩
  rw [if_neg hfull, if_neg h0]
  by_cases h1 : entryAt d s 0 = 0xE5
  · exact ⟨_, if_pos h1, fun _ => rfl⟩
  rw [if_neg h1]
  by_cases h2 : (entryAt d s).attr = 0x0F
  · exact ⟨_, if_pos h2, fun _ => rfl⟩
  · exact ⟨_, if_neg h2, fun hdead => absurd ⟨h0, h1, h2⟩ hdead⟩

theorem foldlM_listStep_of_notMark (hl : ∀ s ∈ l, entryAt d s 0 ≠ 0) :
    ∃ st', l.foldlM (listStep d maxEntries) st = .ok st' ∧
      ((∀ s ∈ l, ¬ Live d s) → st'.entries.length = st.entries.length) := by
  induction l generalizing st with
  | nil => exact ⟨st, rfl, fun _ => rfl⟩
  | cons a l ih =>
    obtain ⟨st₁, hst₁, hlen₁⟩ : ∃ st₁, listStep d maxEntries st a = .ok st₁ ∧ _ :=
      listStep_of_notMark (hl a mem_cons_self)
    obtain ⟨st', hst', hlen⟩ := @ih st₁ fun s hs => hl s (mem_cons_of_mem a hs)
    rw [foldlM_cons, hst₁]
    refine ⟨st', hst', fun hdead => ?_⟩
    exact (hlen fun s hs => hdead s (mem_cons_of_mem a hs)).trans (hlen₁ (hdead a mem_cons_self))

variable (m d maxEntries) in
def listBody (st : Listing) (c : ℕ) : Except Listing Listing :=
  if maxEntries ≤ st.entries.length then .error st
  else (m.slots c).foldlM (listStep d maxEntries) st

variable (m d maxEntries) in
def listWalk (n c : ℕ) (st : Listing) : Option (Except Listing Listing) :=
  walk (fun _ => m.readFatEntry d) fat32IsEndOfChain (listBody m d maxEntries) n c st

theorem yields_listClusters {r : List VfsDirEntry} : (listClusters m d n c maxEntries).Yields r ↔
      ∃ w, listWalk m d maxEntries n c {} = some w ∧ (final w).entries = r := by
  unfold listClusters
  rw [yields_map]
  refine exists_congr fun w => and_congr_left fun _ => yields_follow fun st c => ?_
  unfold listBody
  split_ifs
  · exact .pure _
  · exact yields_scan_slots _ _ _

theorem Lists.within (h : Lists m d c) : ∃ k ≤ 2 ^ 28,
    fat32IsEndOfChain ((m.readFatEntry d)^[k] c) ∨ HasMark m d ((m.readFatEntry d)^[k] c) ∨
      HasLive m d ((m.readFatEntry d)^[k] c) := by
  let event : ℕ → Prop := fun a => fat32IsEndOfChain a ∨ HasMark m d a ∨ HasLive m d a
  suffices hreach : Reaches (m.readFatEntry d) event c from
    Reaches.within id (fun _ ha => lt_of_not_end fun hend => ha (.inl hend))
      (fun _ _ hab _ _ => congrArg (m.readFatEntry d) hab) hreach
  rcases h with ⟨k, hend | hmark⟩ | hlive
  · exact ⟨k, .inl hend⟩
  · exact ⟨k, .inr (.inl hmark)⟩
  · obtain ⟨j, -, hj⟩ := hlive 0
    exact ⟨j, .inr (.inr hj)⟩

theorem Lists.next (h : Lists m d c) (hend : ¬ fat32IsEndOfChain c) (hmark : ¬ HasMark m d c) :
    Lists m d (m.readFatEntry d c) := by
  refine h.imp (fun hb => Reaches.next_of_not_stop hb (not_or.mpr ⟨hend, hmark⟩)) ?_
  intro hlive k
  obtain ⟨j, hj, hlj⟩ := hlive (k + 1)
  obtain ⟨j, rfl⟩ : ∃ i, j = i + 1 := ⟨j - 1, by omega⟩
  exact ⟨j, by omega, hlj⟩

theorem listBody_of_room (hroom : st.entries.length < maxEntries) :
    listBody m d maxEntries st c = (m.slots c).foldlM (listStep d maxEntries) st :=
  if_neg (by omega)

theorem listWalk_of_full (hfull : maxEntries ≤ st.entries.length) (c : ℕ) :
    ∃ w, listWalk m d maxEntries 1 c st = some w := by
  unfold listWalk
  rw [walk]
  by_cases hend : fat32IsEndOfChain c
  · exact ⟨_, if_pos hend⟩
  · have hbody : listBody m d maxEntries st c = .error st := if_pos hfull
    rw [if_neg hend, hbody]
    exact ⟨_, rfl⟩

theorem Lists.round (hc : Lists m d c) (hend : ¬ fat32IsEndOfChain c)
    (h : listBody m d maxEntries st c = .ok st') :
    st.entries.length ≤ st'.entries.length ∧
      (HasMark m d c ∨ HasLive m d c → st.entries.length < st'.entries.length) ∧
      (maxEntries ≤ st'.entries.length ∨ Lists m d (m.readFatEntry d c)) := by
  have hroom : st.entries.length < maxEntries := by
    by_contra hfull
    rw [listBody, if_pos (by omega)] at h
    cases h
  rw [listBody_of_room hroom] at h
  refine ⟨(length_foldlM_listStep h).1, fun hevent => ?_, ?_⟩
  · rcases hevent with ⟨s, hs, hzero⟩ | ⟨s, hs, hlive⟩
    · exact lt_of_foldlM_listStep hs (.inl hzero) hroom h
    · exact lt_of_foldlM_listStep hs (.inr hlive) hroom h
  · by_cases hmark : HasMark m d c
    · obtain ⟨s, hs, hzero⟩ := hmark
      exact .inl (full_of_mark hs hzero h)
    · exact .inr (hc.next hend hmark)

theorem exists_listWalk_of_iterate {N k : ℕ} (hc : Lists m d c)
    (hk : fat32IsEndOfChain ((m.readFatEntry d)^[k] c) ∨
      HasMark m d ((m.readFatEntry d)^[k] c) ∨ HasLive m d ((m.readFatEntry d)^[k] c))
    (hN : 0 < N) (hrest : ∀ c' st', Lists m d c' → st.entries.length < st'.entries.length →
      ∃ w, listWalk m d maxEntries N c' st' = some w) :
    ∃ w, listWalk m d maxEntries (k + 1 + N) c st = some w := by
  -- A round stops the walk, fills the listing or is followed by the rest of the walk.
  have hround : ∀ {n c st}, 0 < n → Lists m d c → (¬ fat32IsEndOfChain c → ∀ st',
      listBody m d maxEntries st c = .ok st' → Lists m d (m.readFatEntry d c) →
        ∃ w, listWalk m d maxEntries n (m.readFatEntry d c) st' = some w) →
      ∃ w, listWalk m d maxEntries (n + 1) c st = some w := by
    intro n c st hn hc hnext
    unfold listWalk
    rw [walk]
    by_cases hend : fat32IsEndOfChain c
    · exact ⟨_, if_pos hend⟩
    rw [if_neg hend]
    cases hbody : listBody m d maxEntries st c with
    | error st' => exact ⟨_, rfl⟩
    | ok st' =>
      rcases (hc.round hend hbody).2.2 with h | h
      · obtain ⟨w, hw⟩ := listWalk_of_full (m := m) (d := d) h (m.readFatEntry d c)
        exact ⟨w, walk_mono hw hn⟩
      · exact hnext hend st' hbody h
  induction k generalizing c st with
  | zero =>
    rw [show 0 + 1 + N = N + 1 by omega]
    refine hround hN hc fun hend st' hbody h => hrest _ st' h ?_
    exact (hc.round hend hbody).2.1 (hk.resolve_left hend)
  | succ k ih =>
    rw [show k + 1 + 1 + N = k + 1 + N + 1 by omega]
    refine hround (by omega) hc fun hend st' hbody h => ih h hk fun c' st'' hc' hlt => ?_
    exact hrest c' st'' hc' ((hc.round hend hbody).1.trans_lt hlt)

theorem exists_listWalk (maxEntries : ℕ) (st : Listing) {r : ℕ}
    (hr : maxEntries - st.entries.length ≤ r) (hc : Lists m d c) :
    ∃ w, listWalk m d maxEntries ((r + 1) * (2 ^ 28 + 2)) c st = some w := by
  induction r generalizing c st with
  | zero =>
    have hfull : maxEntries ≤ st.entries.length := by omega
    obtain ⟨w, hw⟩ := listWalk_of_full (m := m) (d := d) hfull c
    exact ⟨w, walk_mono hw (by omega)⟩
  | succ r ih =>
    obtain ⟨k, hk, hevent⟩ := hc.within
    obtain ⟨w, hw⟩ : ∃ w, listWalk m d maxEntries (k + 1 + (r + 1) * (2 ^ 28 + 2)) c st = some w :=
      exists_listWalk_of_iterate hc hevent (by omega) fun c' st' hc' hlt =>
        ih st' (by omega) hc'
    exact ⟨w, walk_mono hw (by omega)⟩

theorem exists_listClusters (hc : Lists m d c) (hn : (maxEntries + 1) * (2 ^ 28 + 2) ≤ n) :
    ∃ r, (listClusters m d n c maxEntries).Yields r := by
  obtain ⟨w, hw⟩ := exists_listWalk maxEntries {} (Nat.sub_le _ _) hc
  exact ⟨_, yields_listClusters.mpr ⟨w, walk_mono hw hn, rfl⟩⟩

theorem length_slots (m : Fat32Mount) (c : ℕ) : (m.slots c).length = 16 * m.sectorsPerCluster := by
  simp [Fat32Mount.slots, length_flatMap, length_lbas, Nat.mul_comm]

/-- A listing with room for all live entries before the last one never ends if the chain does
not. -/
theorem listWalk_eq_none {k i : ℕ} (hb : ¬ Bounded m d c)
    (hdead : ∀ j ≥ k, ¬ HasLive m d ((m.readFatEntry d)^[j] c))
    (hmax : maxEntries = k * (16 * m.sectorsPerCluster) + 1)
    (hst : st.entries.length ≤ min i k * (16 * m.sectorsPerCluster)) :
    listWalk m d maxEntries n ((m.readFatEntry d)^[i] c) st = none := by
  induction n generalizing i st with
  | zero => rfl
  | succ n ih =>
    have hend : ¬ fat32IsEndOfChain ((m.readFatEntry d)^[i] c) := fun h => hb ⟨i, .inl h⟩
    have hle : min i k * (16 * m.sectorsPerCluster) ≤ k * (16 * m.sectorsPerCluster) :=
      Nat.mul_le_mul_right _ (Nat.min_le_right i k)
    have hslots := length_slots m ((m.readFatEntry d)^[i] c)
    obtain ⟨st', hfold, hkeep⟩ : ∃ st', (m.slots ((m.readFatEntry d)^[i] c)).foldlM
        (listStep d maxEntries) st = .ok st' ∧ _ :=
      foldlM_listStep_of_notMark fun s hs hzero => hb ⟨i, .inr ⟨s, hs, hzero⟩⟩
    have hgrow := (length_foldlM_listStep hfold).2
    unfold listWalk
    rw [walk, if_neg hend, listBody_of_room (by omega), hfold]
    rw [← Function.iterate_succ_apply' (m.readFatEntry d)]
    refine ih (i := i + 1) ?_
    by_cases hi : i < k
    · rw [Nat.min_eq_left hi.le] at hst
      rw [Nat.min_eq_left (by omega), Nat.add_mul, Nat.one_mul]
      omega
    · rw [hkeep fun s hs hlive => hdead i (by omega) ⟨s, hs, hlive⟩, Nat.min_eq_right (by omega)]
      rwa [Nat.min_eq_right (by omega)] at hst

theorem lists_of_listings (h : ∀ maxEntries, ∃ n r, (listClusters m d n c maxEntries).Yields r) :
    Lists m d c := by
  by_contra hnot
  obtain ⟨hb, hlive⟩ := not_or.mp hnot
  push Not at hlive
  obtain ⟨k, hdead⟩ := hlive
  obtain ⟨n, r, hr⟩ := h (k * (16 * m.sectorsPerCluster) + 1)
  obtain ⟨w, hw, -⟩ := yields_listClusters.mp hr
  have hnone : listWalk m d _ n c {} = none :=
    listWalk_eq_none (i := 0) hb hdead rfl (Nat.zero_le _)
  rw [hw] at hnone
  cases hnone

end Listing
end SageOS.Fat32Scan
