import SageOS.Fat32File

/-!
# The directory tree

The directories are the root and, from each directory, the ones that its live entries name; the
files are the other live entries. A disk on which every directory keeps its chain and, up to the
sizes in them, its entries has the same directories and the same files.
-/
namespace SageOS
open LinkedChain List

/-- The entries before the end mark that are in use and not part of a long name. -/
def liveSlots (d : Disk) (l : List Slot) : List Slot :=
  (l.takeWhile fun s => entryAt d s 0 ≠ 0).filter fun s =>
    entryAt d s 0 ≠ 0xE5 ∧ (entryAt d s).attr ≠ 0x0F

/-- The same entry up to the size, which a part of a long name does not have. -/
def SameEntry (e e' : DirEntry) : Prop := e' = e ∨ e.attr ≠ 0x0F ∧ ∃ n, e' = e.withSize n

namespace SameEntry
variable {e e' : DirEntry}
section
variable (h : SameEntry e e')

include h

theorem eq_of_lt {i : Fin 32} (hi : i < 28) : e' i = e i := by
  rcases h with rfl | ⟨-, n, rfl⟩
  · rfl
  · exact if_pos hi

theorem attr : e'.attr = e.attr := h.eq_of_lt (by decide)

theorem shortName : e'.shortName = e.shortName := by
  unfold DirEntry.shortName
  rw [h.eq_of_lt (i := 0) (by decide), h.eq_of_lt (i := 1) (by decide),
    h.eq_of_lt (i := 2) (by decide), h.eq_of_lt (i := 3) (by decide),
    h.eq_of_lt (i := 4) (by decide), h.eq_of_lt (i := 5) (by decide),
    h.eq_of_lt (i := 6) (by decide), h.eq_of_lt (i := 7) (by decide),
    h.eq_of_lt (i := 8) (by decide), h.eq_of_lt (i := 9) (by decide),
    h.eq_of_lt (i := 10) (by decide)]

theorem firstCluster : e'.firstCluster = e.firstCluster := by
  unfold DirEntry.firstCluster
  rw [h.eq_of_lt (i := 20) (by decide), h.eq_of_lt (i := 21) (by decide),
    h.eq_of_lt (i := 26) (by decide), h.eq_of_lt (i := 27) (by decide)]

theorem isDirectory : e'.isDirectory = e.isDirectory := by
  unfold DirEntry.isDirectory
  rw [h.attr]

theorem eq_of_longName (he : e.attr = 0x0F) : e' = e := by
  rcases h with rfl | ⟨hattr, -⟩
  · rfl
  · exact absurd he hattr

end
end SameEntry

section
variable {d d' : Disk} {s : Slot}

theorem findStep_congr (h : SameEntry (entryAt d s) (entryAt d' s)) (name : Bytes)
    (ln : LongName) : findStep d' name ln s = findStep d name ln s := by
  unfold findStep
  rw [h.eq_of_lt (i := 0) (by decide), h.attr]
  by_cases hlong : (entryAt d s).attr = 0x0F
  · rw [h.eq_of_longName hlong]
  · rw [if_neg hlong, if_neg hlong]
    unfold LongName.entryName
    rw [h.shortName]

theorem liveSlots_congr {l : List Slot}
    (h : ∀ s ∈ l, SameEntry (entryAt d s) (entryAt d' s)) : liveSlots d' l = liveSlots d l := by
  unfold liveSlots
  have htake : (l.takeWhile fun s => decide (entryAt d' s 0 ≠ 0)) =
      l.takeWhile fun s => decide (entryAt d s 0 ≠ 0) := by
    induction l with
    | nil => rfl
    | cons s l ih =>
      rw [takeWhile_cons, takeWhile_cons, (h s mem_cons_self).eq_of_lt (i := 0) (by decide),
        ih fun s hs => h s (mem_cons_of_mem _ hs)]
  rw [htake]
  refine filter_congr fun s hs => ?_
  have hsame := h s ((List.takeWhile_prefix _).subset hs)
  rw [hsame.eq_of_lt (i := 0) (by decide), hsame.attr]

theorem shortNameIs_congr (h : SameEntry (entryAt d s) (entryAt d' s)) (name : Bytes) :
    ShortNameIs d' name s ↔ ShortNameIs d name s := by
  unfold ShortNameIs
  rw [h.shortName]

theorem mem_liveSlots_of_find {l : List Slot} {name : Bytes} {ln : LongName}
    (h : l.foldlM (findStep d name) ln = .error (some s)) : s ∈ liveSlots d l := by
  induction l generalizing ln with
  | nil => cases h
  | cons a l ih =>
    rw [foldlM_cons] at h
    unfold liveSlots
    by_cases hend : entryAt d a 0 = 0
    · have hstep : findStep d name ln a = .error none := if_pos hend
      rw [hstep] at h
      cases h
    rw [takeWhile_cons_of_pos (by simpa using hend), filter_cons]
    cases hstep : findStep d name ln a with
    | ok ln' =>
      rw [hstep] at h
      have hmem : s ∈ liveSlots d l := ih h
      split_ifs
      · exact mem_cons_of_mem a hmem
      · exact hmem
    | error r =>
      rw [hstep] at h
      cases h
      unfold findStep at hstep
      split_ifs at hstep with h1 h2
      cases hstep
      rw [if_pos (decide_eq_true ⟨h1, h2⟩)]
      exact mem_cons_self

end

namespace Fat32Mount
variable (m : Fat32Mount)

def ClusterChain (d : Disk) (c : ℕ) (l : List ℕ) : Prop :=
  Chain (m.readFatEntry d) fat32IsEndOfChain c l

def dirSlots (l : List ℕ) : List Slot := l.flatMap m.slots

inductive DirHead (d : Disk) : ℕ → Prop
  | root : DirHead d m.rootCluster
  | sub {c : ℕ} {l : List ℕ} {s : Slot} (hc : DirHead d c) (hl : m.ClusterChain d c l)
      (hs : s ∈ liveSlots d (m.dirSlots l)) (hdir : (entryAt d s).isDirectory = true)
      (hfirst : 2 ≤ (entryAt d s).firstCluster) : DirHead d (entryAt d s).firstCluster

def FileSlot (d : Disk) (s : Slot) : Prop :=
  ∃ c l, m.DirHead d c ∧ m.ClusterChain d c l ∧ s ∈ liveSlots d (m.dirSlots l) ∧
    (entryAt d s).isDirectory = false

/-- Every directory has a chain that is not too long to walk over. -/
def DirsEnd (d : Disk) : Prop :=
  ∀ c, m.DirHead d c → ∃ l, m.ClusterChain d c l ∧ l.length < maxChain

/-- The second disk has the directories of the first up to the sizes of entries. -/
def SameDirs (d d' : Disk) : Prop :=
  ∀ c l, m.DirHead d c → m.ClusterChain d c l →
    (∀ a ∈ l, m.readFatEntry d' a = m.readFatEntry d a) ∧
      ∀ s ∈ m.dirSlots l, SameEntry (entryAt d s) (entryAt d' s)

variable {m} {d d' : Disk}
variable {l : List ℕ} {c : ℕ}
section
variable (h : m.SameDirs d d')

include h

theorem SameDirs.chain (hc : m.DirHead d c) (hl : m.ClusterChain d c l) : m.ClusterChain d' c l :=
  Chain.congr hl (h c l hc hl).1

theorem SameDirs.liveSlots (hc : m.DirHead d c)
    (hl : m.ClusterChain d c l) : liveSlots d' (m.dirSlots l) = liveSlots d (m.dirSlots l) :=
  liveSlots_congr (h c l hc hl).2

theorem SameDirs.entry {s : Slot} (hc : m.DirHead d c)
    (hl : m.ClusterChain d c l) (hs : s ∈ SageOS.liveSlots d (m.dirSlots l)) :
    SameEntry (entryAt d s) (entryAt d' s) :=
  (h c l hc hl).2 s ((List.takeWhile_prefix _).subset (mem_of_mem_filter hs))

theorem SameDirs.dirHead (hc : m.DirHead d c) : m.DirHead d' c := by
  induction hc with
  | root => exact .root
  | sub hc hl hs hdir hfirst ih =>
    have hentry := h.entry hc hl hs
    rw [← hentry.firstCluster] at hfirst ⊢
    exact .sub ih (h.chain hc hl) (by rwa [h.liveSlots hc hl]) (by rwa [hentry.isDirectory]) hfirst

theorem SameDirs.dirHead_iff (hend : m.DirsEnd d) (c : ℕ) : m.DirHead d' c ↔ m.DirHead d c := by
  refine ⟨fun hc => ?_, h.dirHead⟩
  induction hc with
  | root => exact .root
  | sub hc' hl' hs hdir hfirst ih =>
    obtain ⟨l, hl, -⟩ := hend _ ih
    obtain rfl := Chain.unique hl' (h.chain ih hl)
    rw [h.liveSlots ih hl] at hs
    have hentry := h.entry ih hl hs
    rw [hentry.isDirectory] at hdir
    rw [hentry.firstCluster] at hfirst ⊢
    exact .sub ih hl hs hdir hfirst

theorem SameDirs.fileSlot_iff (hend : m.DirsEnd d) (s : Slot) :
    m.FileSlot d' s ↔ m.FileSlot d s := by
  constructor
  · rintro ⟨c, l', hc', hl', hs, hfile⟩
    have hc := (h.dirHead_iff hend c).mp hc'
    obtain ⟨l, hl, -⟩ := hend c hc
    obtain rfl := Chain.unique hl' (h.chain hc hl)
    rw [h.liveSlots hc hl] at hs
    exact ⟨c, _, hc, hl, hs, (h.entry hc hl hs).isDirectory ▸ hfile⟩
  · rintro ⟨c, l, hc, hl, hs, hfile⟩
    exact ⟨c, l, h.dirHead hc, h.chain hc hl, by rwa [h.liveSlots hc hl],
      (h.entry hc hl hs).isDirectory.trans hfile⟩

end
end Fat32Mount
end SageOS
