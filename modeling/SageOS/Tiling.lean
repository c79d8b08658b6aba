import Mathlib.Data.List.Chain
import Mathlib.Tactic

/-!
# Tilings of a range

A list of tiles covers the range from `lo` to `hi`: each one starts where the one before it ends.
A tile is free or in use. Tiles of a covered range lie in it and do not overlap; a part of the list
can be replaced by one that covers the same part of the range. When no two neighbours are free,
there is a gap between any two free tiles.
-/
namespace Tiling
open List

structure Tile where
  addr : ℕ
  size : ℕ
  free : Bool
  deriving DecidableEq, Repr

def Tile.last (t : Tile) : ℕ := t.addr + t.size

def Tiles : ℕ → ℕ → List Tile → Prop
  | lo, hi, [] => lo = hi
  | lo, hi, t :: ts => t.addr = lo ∧ Tiles t.last hi ts

/-- No two neighbours are free. -/
def Apart (ts : List Tile) : Prop := ts.IsChain fun t u => ¬ (t.free = true ∧ u.free = true)

variable {lo hi : ℕ} {ts us : List Tile} {t u : Tile}

theorem tiles_append : Tiles lo hi (ts ++ us) ↔ ∃ mid, Tiles lo mid ts ∧ Tiles mid hi us := by
  induction ts generalizing lo with
  | nil => simp [Tiles]
  | cons t ts ih => simp [Tiles, ih, and_assoc]

theorem tiles_append_cons : Tiles lo hi (ts ++ t :: us) ↔
    Tiles lo t.addr ts ∧ Tiles t.last hi us := by
  rw [tiles_append]
  constructor
  · rintro ⟨mid, hts, rfl, hus⟩
    exact ⟨hts, hus⟩
  · rintro ⟨hts, hus⟩
    exact ⟨t.addr, hts, rfl, hus⟩

theorem apart_append_cons : Apart (ts ++ t :: us) ↔ Apart ts ∧ Apart us ∧
    (t.free = true → (∀ u ∈ ts.getLast?, u.free = false) ∧ ∀ u ∈ us.head?, u.free = false) := by
  unfold Apart
  rw [isChain_append, isChain_cons]
  simp only [head?_cons, Option.mem_some_iff, forall_eq', not_and, Bool.not_eq_true]
  constructor
  · rintro ⟨hts, ⟨htu, hus⟩, hut⟩
    refine ⟨hts, hus, fun ht => ⟨fun u hu => ?_, fun u hu => htu u hu ht⟩⟩
    cases hfree : u.free with
    | false => rfl
    | true => exact ht.symm.trans (hut u hu hfree)
  · rintro ⟨hts, hus, hfree⟩
    refine ⟨hts, ⟨fun u hu ht => (hfree ht).2 u hu, hus⟩, fun u hu hu' => ?_⟩
    cases ht : t.free with
    | false => rfl
    | true => exact hu'.symm.trans ((hfree ht).1 u hu)

theorem apart_cons :
    Apart (t :: us) ↔ Apart us ∧ (t.free = true → ∀ u ∈ us.head?, u.free = false) := by
  have h := @apart_append_cons [] us t
  simpa [Apart] using h

theorem apart_concat :
    Apart (ts ++ [t]) ↔ Apart ts ∧ (t.free = true → ∀ u ∈ ts.getLast?, u.free = false) := by
  have h := @apart_append_cons ts [] t
  simpa [Apart] using h

namespace Apart

theorem use (h : Apart (ts ++ t :: us)) (hu : u.free = false) : Apart (ts ++ u :: us) := by
  obtain ⟨hts, hus, -⟩ := apart_append_cons.mp h
  refine apart_append_cons.mpr ⟨hts, hus, fun hfree => ?_⟩
  rw [hu] at hfree
  cases hfree

theorem split {v : Tile} (h : Apart (ts ++ t :: us)) (ht : t.free = true) (hu : u.free = false) :
    Apart (ts ++ u :: v :: us) := by
  obtain ⟨hts, hus, hfree⟩ := apart_append_cons.mp h
  have hvs : Apart (v :: us) := apart_cons.mpr ⟨hus, fun _ => (hfree ht).2⟩
  refine apart_append_cons.mpr ⟨hts, hvs, fun hfree => ?_⟩
  rw [hu] at hfree
  cases hfree

theorem concat (h : Apart ts) (hu : u.free = false) : Apart (ts ++ [u]) := by
  refine apart_concat.mpr ⟨h, fun hfree => ?_⟩
  rw [hu] at hfree
  cases hfree

end Apart

namespace Tiles

theorem le (h : Tiles lo hi ts) : lo ≤ hi := by
  induction ts generalizing lo with
  | nil => exact h.le
  | cons t ts ih =>
    obtain ⟨rfl, hts⟩ := h
    exact (Nat.le_add_right _ _).trans (ih hts)

theorem mem_range (h : Tiles lo hi ts) (ht : t ∈ ts) : lo ≤ t.addr ∧ t.last ≤ hi := by
  obtain ⟨us, vs, rfl⟩ := append_of_mem ht
  obtain ⟨hus, hvs⟩ := tiles_append_cons.mp h
  exact ⟨hus.le, hvs.le⟩

theorem disjoint (h : Tiles lo hi ts) : ts.Pairwise fun t u => t.last ≤ u.addr := by
  induction ts generalizing lo with
  | nil => exact List.Pairwise.nil
  | cons t ts ih =>
    obtain ⟨-, hts⟩ := h
    exact List.Pairwise.cons (fun u hu => (hts.mem_range hu).1) (ih hts)

theorem gaps (h : Tiles lo hi ts) (ha : Apart ts) (hpos : ∀ t ∈ ts, 0 < t.size) :
    (ts.filter Tile.free).Pairwise fun t u => t.last < u.addr := by
  induction ts generalizing lo with
  | nil => exact List.Pairwise.nil
  | cons t ts ih =>
    obtain ⟨-, hts⟩ := h
    have hpos' := fun u hu => hpos u (mem_cons_of_mem t hu)
    have hrest := ih hts ha.tail hpos'
    cases hfree : t.free with
    | false => rwa [filter_cons_of_neg (by simp [hfree])]
    | true =>
      rw [filter_cons_of_pos hfree]
      refine List.Pairwise.cons (fun u hu => ?_) hrest
      obtain ⟨hu, hufree⟩ := mem_filter.mp hu
      cases ts with
      | nil => cases hu
      | cons v ts =>
        obtain ⟨hv, hvs⟩ := hts
        rcases mem_cons.mp hu with rfl | hu
        · exact absurd ⟨hfree, hufree⟩ (isChain_cons_cons.mp ha).1
        · have hvu := (hvs.mem_range hu).1
          have hvpos := hpos' v mem_cons_self
          unfold Tile.last at hv hvu ⊢
          omega

end Tiles
end Tiling
