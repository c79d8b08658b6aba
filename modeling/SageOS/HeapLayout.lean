import SageOS.HeapFreeList

/-!
# The layout of the arena

`Laid place h ts` says that the tiles `ts` cover the arena up to the bump pointer, that the free
list links the free ones in order, and that the header of each tile in use holds the size of the
rest. Writes inside of a tile in use, behind its header, keep the layout.
-/
namespace SageOS
open Tiling List Tile

structure Laid (place : HeapPlace) (h : Heap) (ts : List Tile) : Prop where
  tiles : Tiles place.base (place.base + h.bump) ts
  bound : h.bump ≤ sageArenaSize
  sizes : ∀ t ∈ ts, 32 ≤ t.size ∧ t.size % 16 = 0
  chain : FreeSeg h.mem h.freeList (ts.filter Tile.free) 0
  headers : ∀ t ∈ ts, t.free = false → h.mem t.addr = t.size - 16

def used (ts : List Tile) : List Tile := ts.filter fun t => !t.free

def pointers (ts : List Tile) : List ℕ := (used ts).map fun t => t.addr + 16

variable {place : HeapPlace} {h : Heap} {ts us : List Tile} {t u : Tile}

theorem used_append (ts us : List Tile) : used (ts ++ us) = used ts ++ used us :=
  filter_append ts us

theorem used_cons_free (ht : t.free = true) (ts : List Tile) : used (t :: ts) = used ts :=
  filter_cons_of_neg (by simp [ht])

theorem used_cons_used (ht : t.free = false) (ts : List Tile) : used (t :: ts) = t :: used ts :=
  filter_cons_of_pos (by simp [ht])

theorem mem_used : t ∈ used ts ↔ t ∈ ts ∧ t.free = false := by
  unfold used
  rw [mem_filter, Bool.not_eq_true']

theorem mem_pointers {p : ℕ} : p ∈ pointers ts ↔ ∃ t ∈ ts, t.free = false ∧ t.addr + 16 = p := by
  unfold pointers
  rw [mem_map]
  simp only [mem_used, and_assoc]

namespace Laid

theorem addr_ne_zero (hl : Laid place h ts) (ht : t ∈ ts) : t.addr ≠ 0 := by
  have hlo := (hl.tiles.mem_range ht).1
  have hpos := place.pos
  omega

theorem spaced (hl : Laid place h ts) : Spaced (ts.filter Tile.free) := by
  apply List.Pairwise.filter
  apply hl.tiles.disjoint.imp_of_mem
  intro t u ht _ htu
  have hsize := (hl.sizes t ht).1
  unfold last at htu
  omega

theorem mul_length_le {lo hi : ℕ} (htiles : Tiles lo hi ts) (hsizes : ∀ t ∈ ts, 32 ≤ t.size) :
    lo + 32 * ts.length ≤ hi := by
  induction ts generalizing lo with
  | nil => exact htiles.le
  | cons t ts ih =>
    obtain ⟨rfl, hts⟩ := htiles
    have hrest := ih hts fun u hu => hsizes u (mem_cons_of_mem t hu)
    have hsize := hsizes t mem_cons_self
    unfold last at hrest
    rw [length_cons]
    omega

theorem length_lt (hl : Laid place h ts) : ts.length < Heap.walkLimit := by
  have hlen := mul_length_le hl.tiles fun t ht => (hl.sizes t ht).1
  have hbound := hl.bound
  have harena : sageArenaSize = 33554432 := rfl
  unfold Heap.walkLimit
  omega

theorem aligned {lo hi : ℕ} (htiles : Tiles lo hi ts) (hlo : lo % 16 = 0)
    (hsizes : ∀ t ∈ ts, t.size % 16 = 0) : hi % 16 = 0 ∧ ∀ t ∈ ts, t.addr % 16 = 0 := by
  induction ts generalizing lo with
  | nil =>
    obtain rfl := htiles
    exact ⟨hlo, nofun⟩
  | cons t ts ih =>
    obtain ⟨rfl, hts⟩ := htiles
    have hsize := hsizes t mem_cons_self
    have hlast : t.last % 16 = 0 := by
      unfold last
      omega
    obtain ⟨hhi, hrest⟩ := ih hts hlast fun u hu => hsizes u (mem_cons_of_mem t hu)
    refine ⟨hhi, fun u hu => ?_⟩
    rcases mem_cons.mp hu with rfl | hu
    · exact hlo
    · exact hrest u hu

theorem addr_aligned (hl : Laid place h ts) (ht : t ∈ ts) : t.addr % 16 = 0 :=
  (aligned hl.tiles place.aligned fun u hu => (hl.sizes u hu).2).2 t ht

theorem before (hl : Laid place h (ts ++ t :: us)) (hu : u ∈ ts) : u.addr + 32 ≤ t.addr := by
  obtain ⟨hts, -⟩ := tiles_append_cons.mp hl.tiles
  have hlast := (hts.mem_range hu).2
  have hsize := (hl.sizes u (by simp [hu])).1
  unfold last at hlast
  omega

theorem behind (hl : Laid place h (ts ++ t :: us)) (hu : u ∈ us) : t.last ≤ u.addr := by
  obtain ⟨-, hus⟩ := tiles_append_cons.mp hl.tiles
  exact (hus.mem_range hu).1

theorem outside (hl : Laid place h ts) (ht : t ∈ ts) (hu : u ∈ ts) (hne : u ≠ t) {x : ℕ}
    (hx : t.addr ≤ x ∧ x < t.last) : x < u.addr ∨ u.last ≤ x := by
  obtain ⟨as, bs, rfl⟩ := append_of_mem ht
  obtain ⟨has, hbs⟩ := tiles_append_cons.mp hl.tiles
  rcases mem_append.mp hu with hu | hu
  · exact .inr ((has.mem_range hu).2.trans hx.1)
  · have hu := (mem_cons.mp hu).resolve_left hne
    exact .inl (hx.2.trans_le (hbs.mem_range hu).1)

theorem write_inside (hl : Laid place h ts) (ht : t ∈ ts) (hused : t.free = false)
    {mem : ℕ → ℕ} (hmem : ∀ a, a < t.addr + 16 ∨ t.last ≤ a → mem a = h.mem a) :
    Laid place { h with mem := mem } ts := by
  obtain ⟨as, bs, rfl⟩ := append_of_mem ht
  have hword : ∀ u ∈ as ++ t :: bs, mem u.addr = h.mem u.addr ∧
      (u.free = true → mem (u.addr + 8) = h.mem (u.addr + 8)) := by
    intro u hu
    rcases mem_append.mp hu with hu | hu
    · have hclear := hl.before hu
      exact ⟨hmem _ (.inl (by omega)), fun _ => hmem _ (.inl (by omega))⟩
    · rcases mem_cons.mp hu with rfl | hu
      · refine ⟨hmem _ (.inl (by omega)), fun hfree => ?_⟩
        rw [hused] at hfree
        cases hfree
      · have hclear := hl.behind hu
        exact ⟨hmem _ (.inr (by omega)), fun _ => hmem _ (.inr (by omega))⟩
  refine ⟨hl.tiles, hl.bound, hl.sizes, hl.chain.congr fun u hu => ?_, fun u hu hfree => ?_⟩
  · obtain ⟨hu, hfree⟩ := mem_filter.mp hu
    exact ⟨(hword u hu).1, (hword u hu).2 hfree⟩
  · exact (hword u hu).1.trans (hl.headers u hu hfree)

/-- Other tiles take the place of the tiles `xs`. -/
theorem replace {h' : Heap} {as bs : List Tile} (xs cs : List Tile)
    (hl : Laid place h (as ++ (xs ++ bs))) (hbump : h'.bump = h.bump)
    (htiles : ∀ {lo hi}, Tiles lo hi xs → Tiles lo hi cs)
    (hsizes : ∀ t ∈ cs, 32 ≤ t.size ∧ t.size % 16 = 0)
    (hchain : FreeSeg h'.mem h'.freeList
      (as.filter Tile.free ++ (cs.filter Tile.free ++ bs.filter Tile.free)) 0)
    (hkept : ∀ t ∈ as ++ bs, t.free = false → h'.mem t.addr = h.mem t.addr)
    (hheaders : ∀ t ∈ cs, t.free = false → h'.mem t.addr = t.size - 16) :
    Laid place h' (as ++ (cs ++ bs)) := by
  have hmem : ∀ t ∈ as ++ (cs ++ bs), t ∈ cs ∨ t ∈ as ++ bs ∧ t ∈ as ++ (xs ++ bs) := by
    intro t ht
    simp only [mem_append] at ht ⊢
    tauto
  refine ⟨?_, hbump ▸ hl.bound, fun t ht => ?_, ?_, fun t ht hfree => ?_⟩
  · obtain ⟨lo, has, hrest⟩ := tiles_append.mp hl.tiles
    obtain ⟨hi, hxs, hbs⟩ := tiles_append.mp hrest
    rw [hbump]
    exact tiles_append.mpr ⟨lo, has, tiles_append.mpr ⟨hi, htiles hxs, hbs⟩⟩
  · rcases hmem t ht with ht | ⟨-, ht⟩
    · exact hsizes t ht
    · exact hl.sizes t ht
  · rwa [filter_append, filter_append]
  · rcases hmem t ht with ht | ⟨hother, ht⟩
    · exact hheaders t ht hfree
    · rw [hkept t hother hfree]
      exact hl.headers t ht hfree

end Laid

theorem laid_empty (place : HeapPlace) (mem : ℕ → ℕ) : Laid place ⟨0, 0, mem⟩ [] :=
  ⟨rfl, Nat.zero_le _, nofun, rfl, nofun⟩

end SageOS
