import SageOS.Fat32Tree

/-!
# Lookups in the directory tree

A lookup only visits the clusters and entries of directories, and of an entry that is not part of a
long name it does not look at the stored size. So it ends when the chains of the directories do, and
it finds the same entry on every disk that has the same directories up to sizes.
-/
namespace SageOS.Fat32Mount
open LinkedChain List
variable {m : Fat32Mount} {d d' : Disk}

theorem foldlM_flatMap {α β ε σ : Type} (g : α → List β) (f : σ → β → Except ε σ) (l : List α)
    (s : σ) : l.foldlM (fun s a => (g a).foldlM f s) s = (l.flatMap g).foldlM f s := by
  induction l generalizing s with
  | nil => rfl
  | cons a l ih =>
    rw [foldlM_cons, flatMap_cons, foldlM_append]
    exact congrArg _ (funext ih)

theorem findEntryInCluster_chain {c : ℕ} {l : List ℕ} (hl : m.ClusterChain d c l)
    (hlen : l.length < maxChain) (name : Bytes) :
    m.findEntryInCluster d c name =
      match (m.dirSlots l).foldlM (findStep d name) {} with
      | .error r => some r
      | .ok _ => some none := by
  unfold findEntryInCluster
  rw [walk_chain (I := fun _ => True) hl hlen trivial (fun _ _ _ _ => rfl)
    (fun _ _ _ _ _ _ => trivial), foldlM_flatMap]
  unfold dirSlots
  cases (l.flatMap m.slots).foldlM (findStep d name) {} <;> rfl

theorem updateTarget_chain {c : ℕ} {l : List ℕ} (hl : m.ClusterChain d c l)
    (hlen : l.length < maxChain) (name : Bytes) :
    m.updateTarget d c name = some ((m.dirSlots l).find? (ShortNameIs d name ·)) := by
  unfold updateTarget
  rw [walk_chain (I := fun _ => True) hl hlen trivial (fun _ _ _ _ => rfl)
    (fun _ _ _ _ _ _ => trivial), foldlM_flatMap]
  unfold dirSlots
  induction l.flatMap m.slots with
  | nil => rfl
  | cons s l ih =>
    rw [foldlM_cons, find?_cons]
    by_cases h : ShortNameIs d name s
    · rw [if_pos h, decide_eq_true h]
      rfl
    · rw [if_neg h, decide_eq_false h]
      exact ih

theorem exists_findEntryInCluster (hend : m.DirsEnd d) {c : ℕ} (hc : m.DirHead d c)
    (name : Bytes) : ∃ r, m.findEntryInCluster d c name = some r ∧
      ∀ s, r = some s → ∃ l, m.ClusterChain d c l ∧ s ∈ liveSlots d (m.dirSlots l) := by
  obtain ⟨l, hl, hlen⟩ := hend c hc
  rw [findEntryInCluster_chain hl hlen]
  cases hfold : (m.dirSlots l).foldlM (findStep d name) {} with
  | ok ln => exact ⟨none, rfl, nofun⟩
  | error r =>
    refine ⟨r, rfl, ?_⟩
    rintro s rfl
    exact ⟨l, hl, mem_liveSlots_of_find hfold⟩

theorem SameDirs.findEntryInCluster (h : m.SameDirs d d') (hend : m.DirsEnd d) {c : ℕ}
    (hc : m.DirHead d c) (name : Bytes) :
    m.findEntryInCluster d' c name = m.findEntryInCluster d c name := by
  obtain ⟨l, hl, hlen⟩ := hend c hc
  have hfold : ∀ slots : List Slot, (∀ s ∈ slots, SameEntry (entryAt d s) (entryAt d' s)) →
      ∀ ln, slots.foldlM (findStep d' name) ln = slots.foldlM (findStep d name) ln := by
    intro slots hslots
    induction slots with
    | nil => exact fun _ => rfl
    | cons s slots ih =>
      intro ln
      rw [foldlM_cons, foldlM_cons, findStep_congr (hslots s mem_cons_self)]
      exact congrArg _ (funext (ih fun s hs => hslots s (mem_cons_of_mem _ hs)))
  rw [findEntryInCluster_chain hl hlen, findEntryInCluster_chain (h.chain hc hl) hlen,
    hfold _ (h c l hc hl).2]

theorem SameDirs.updateTarget (h : m.SameDirs d d') (hend : m.DirsEnd d) (name : Bytes) :
    m.updateTarget d' m.rootCluster name = m.updateTarget d m.rootCluster name := by
  obtain ⟨l, hl, hlen⟩ := hend _ .root
  have hfind : ∀ slots : List Slot, (∀ s ∈ slots, SameEntry (entryAt d s) (entryAt d' s)) →
      slots.find? (ShortNameIs d' name ·) = slots.find? (ShortNameIs d name ·) := by
    intro slots hslots
    induction slots with
    | nil => rfl
    | cons s slots ih =>
      rw [find?_cons, find?_cons, ih fun s hs => hslots s (mem_cons_of_mem _ hs),
        decide_eq_decide.mpr (shortNameIs_congr (hslots s mem_cons_self) name)]
  rw [updateTarget_chain hl hlen, updateTarget_chain (h.chain .root hl) hlen,
    hfind _ (h _ l .root hl).2]

section
variable {c : ℕ} {found : Option Slot} {segment : Bytes} {rest : List Bytes}

theorem resolve_of_find_none (hne : segment ≠ [])
    (hr : m.findEntryInCluster d c (segment.take 255) = some none) :
    m.resolve d c found (segment :: rest) = some none := by
  rw [Fat32Mount.resolve, if_neg hne, hr, Option.bind_some]

theorem resolve_of_find (hne : segment ≠ []) {s : Slot}
    (hr : m.findEntryInCluster d c (segment.take 255) = some (some s)) :
    m.resolve d c found (segment :: rest) =
      if rest = [] then some (some s)
      else if (entryAt d s).isDirectory = false then some none
      else if (entryAt d s).firstCluster < 2 then some none
      else m.resolve d (entryAt d s).firstCluster (some s) rest := by
  rw [Fat32Mount.resolve, if_neg hne, hr, Option.bind_some]

end

theorem SameDirs.resolve (h : m.SameDirs d d') (hend : m.DirsEnd d) {c : ℕ} (hc : m.DirHead d c)
    (found : Option Slot) (parts : List Bytes) :
    m.resolve d' c found parts = m.resolve d c found parts := by
  induction parts generalizing c found with
  | nil => rfl
  | cons segment rest ih =>
    by_cases hempty : segment = []
    · rw [Fat32Mount.resolve, Fat32Mount.resolve, if_pos hempty, if_pos hempty, ih hc]
    obtain ⟨r, hr, hlive⟩ := exists_findEntryInCluster hend hc (segment.take 255)
    have hr' := (h.findEntryInCluster hend hc (segment.take 255)).trans hr
    cases r with
    | none => rw [resolve_of_find_none hempty hr, resolve_of_find_none hempty hr']
    | some s =>
      obtain ⟨l, hl, hs⟩ := hlive s rfl
      have hentry := h.entry hc hl hs
      rw [resolve_of_find hempty hr, resolve_of_find hempty hr', hentry.isDirectory,
        hentry.firstCluster]
      by_cases hdir : (entryAt d s).isDirectory = false
      · rw [if_pos hdir, if_pos hdir]
      by_cases hfirst : (entryAt d s).firstCluster < 2
      · rw [if_pos hfirst, if_pos hfirst]
      · rw [ih (.sub hc hl hs (by simpa using hdir) (by omega))]

theorem exists_resolve (hend : m.DirsEnd d) {c : ℕ} (hc : m.DirHead d c) (found : Option Slot)
    (hfound : ∀ s, found = some s → ∃ c l, m.DirHead d c ∧ m.ClusterChain d c l ∧
      s ∈ liveSlots d (m.dirSlots l)) (parts : List Bytes) :
    ∃ r, m.resolve d c found parts = some r ∧ ∀ s, r = some s →
      ∃ c l, m.DirHead d c ∧ m.ClusterChain d c l ∧ s ∈ liveSlots d (m.dirSlots l) := by
  induction parts generalizing c found with
  | nil => exact ⟨found, rfl, hfound⟩
  | cons segment rest ih =>
    by_cases hempty : segment = []
    · rw [Fat32Mount.resolve, if_pos hempty]
      exact ih hc found hfound
    obtain ⟨r, hr, hlive⟩ := exists_findEntryInCluster hend hc (segment.take 255)
    cases r with
    | none => exact ⟨none, resolve_of_find_none hempty hr, nofun⟩
    | some s =>
      obtain ⟨l, hl, hs⟩ := hlive s rfl
      have hthis : ∀ s', some s = some s' → ∃ c l, m.DirHead d c ∧ m.ClusterChain d c l ∧
          s' ∈ liveSlots d (m.dirSlots l) := by
        rintro s' ⟨⟩
        exact ⟨c, l, hc, hl, hs⟩
      rw [resolve_of_find hempty hr]
      split_ifs with hlast hdir hfirst
      · exact ⟨_, rfl, hthis⟩
      · exact ⟨none, rfl, nofun⟩
      · exact ⟨none, rfl, nofun⟩
      · exact ih (.sub hc hl hs (by simpa using hdir) (by omega)) _ hthis

theorem SameDirs.findRootEntry (h : m.SameDirs d d') (hend : m.DirsEnd d) (path : Bytes) :
    m.findRootEntry d' path = m.findRootEntry d path :=
  h.resolve hend .root none _

theorem exists_of_findRootEntry (hend : m.DirsEnd d) {path : Bytes} {s : Slot}
    (h : m.findRootEntry d path = some (some s)) : ∃ c l, m.DirHead d c ∧ m.ClusterChain d c l ∧
      s ∈ liveSlots d (m.dirSlots l) := by
  obtain ⟨r, hr, hlive⟩ := exists_resolve hend .root none nofun (path.splitOnP (· == slash))
  obtain rfl := Option.some.inj (h.symm.trans hr)
  exact hlive s rfl

end SageOS.Fat32Mount
