import SageOS.HeapTake

/-!
# Linking and merging free tiles

A freed tile is linked between the free tiles before and behind it. Then it takes in the tile
behind it when that one is free, and the tile before it takes it in when that one is free. Two
free tiles of the list that touch are neighbours in the arena.
-/
namespace SageOS
open Tiling List Function Tile
variable {place : HeapPlace} {h : Heap} {as bs ts : List Tile} {a b c : Tile}
namespace Heap

theorem absorbNext_of_ne {block x : ℕ} (hx : x ≠ block ∧ x ≠ block + 8) :
    (h.absorbNext block).mem x = h.mem x :=
  (update_of_ne hx.2 _ _).trans (update_of_ne hx.1 _ _)

theorem coalesceNext_of_ne {block x : ℕ} (hx : x ≠ block ∧ x ≠ block + 8) :
    (h.coalesceNext block).mem x = h.mem x := by
  unfold coalesceNext
  split_ifs
  · exact absorbNext_of_ne hx
  · rfl

end Heap

namespace Laid

theorem insert (hl : Laid place h (as ++ b :: bs)) (hb : b.free = false) :
    Laid place (((h.store b.addr b.size).store (b.addr + 8)
      (startOf (bs.filter Tile.free) 0)).setLink (linkOf none (as.filter Tile.free)) b.addr)
      (as ++ ⟨b.addr, b.size, true⟩ :: bs) := by
  have hsize := hl.sizes b (by simp)
  have hchain := hl.chain
  rw [filter_append, filter_cons_of_neg (by simp [hb])] at hchain
  obtain ⟨q, has, hbs⟩ := freeSeg_append.mp hchain
  refine hl.replace [b] [⟨b.addr, b.size, true⟩] (Heap.setLink_bump ..) id ?_ ?_
    (fun t ht _ => ?_) ?_
  · simpa using hsize
  · refine freeSeg_link (c := ⟨b.addr, b.size, true⟩) has hl.spaced_before (hbs.start ▸ hbs)
      (fun a ha => ?_) fun c hc => ?_
    · have := hl.before (mem_filter.mp ha).1
      dsimp only
      omega
    · have hbehind : b.addr + b.size ≤ c.addr := hl.behind (mem_filter.mp hc).1
      dsimp only
      omega
  · have := hl.clear_around ht
    rw [hl.mem_setLink_header (mem_around ht)]
    exact (update_of_ne (by omega) _ _).trans (update_of_ne (by omega) _ _)
  · simp

theorem absorbNext (hl : Laid place h (as ++ b :: c :: bs)) (hb : b.free = true)
    (hc : c.free = true) :
    Laid place (h.absorbNext b.addr) (as ++ ⟨b.addr, b.size + c.size, true⟩ :: bs) := by
  have hbsize := hl.sizes b (by simp)
  have hcsize := hl.sizes c (by simp)
  have hcaddr : c.addr = b.addr + b.size := (tiles_append_cons.mp hl.tiles).2.1
  have hclear : ∀ t ∈ as ++ bs, t.addr + 32 ≤ b.addr ∨ b.addr + b.size ≤ t.addr := by
    intro t ht
    refine hl.clear_around ?_
    simp only [mem_append, mem_cons] at ht ⊢
    tauto
  obtain ⟨has, hsize, hrest⟩ := hl.chain_around hb
  rw [filter_cons_of_pos hc] at hrest
  obtain ⟨hnext, hsize', hbs⟩ := hrest
  have hheap : h.absorbNext b.addr = (h.store b.addr (b.size + c.size)).store (b.addr + 8)
      (h.mem (c.addr + 8)) := by
    unfold Heap.absorbNext
    dsimp only
    rw [hnext, hsize, hsize']
    congr 1
    exact update_of_ne (by omega) _ _
  have hkept : ∀ {p q ds}, FreeSeg h.mem p ds q → (∀ d ∈ ds, d ∈ as ++ bs) →
      FreeSeg (h.absorbNext b.addr).mem p ds q := by
    intro p q ds hs hds
    refine hs.congr fun d hd => ?_
    have := hclear d (hds d hd)
    exact ⟨Heap.absorbNext_of_ne (by omega), Heap.absorbNext_of_ne (by omega)⟩
  refine hl.replace [b, c] [⟨b.addr, b.size + c.size, true⟩] rfl ?_ ?_ ?_ (fun t ht _ => ?_) ?_
  · rintro lo hi ⟨rfl, -, hlast⟩
    refine ⟨rfl, hlast ▸ ?_⟩
    change b.addr + (b.size + c.size) = c.addr + c.size
    omega
  · simpa using ⟨by omega, by omega⟩
  · refine freeSeg_append_cons.mpr ⟨hkept has fun d hd => ?_, ?_, ?_⟩
    · exact mem_append_left _ (mem_filter.mp hd).1
    · rw [hheap]
      exact (update_of_ne (by simp) _ _).trans (update_self _ _ _)
    · rw [show (h.absorbNext b.addr).mem (b.addr + 8) = h.mem (c.addr + 8) from
        hheap ▸ update_self _ _ _]
      exact hkept hbs fun d hd => mem_append_right _ (mem_filter.mp hd).1
  · have := hclear t ht
    exact Heap.absorbNext_of_ne (by omega)
  · simp

theorem coalesceNext_of_free (hl : Laid place h (as ++ b :: c :: bs)) (hb : b.free = true)
    (hc : c.free = true) : h.coalesceNext b.addr = h.absorbNext b.addr := by
  obtain ⟨-, hsize, hrest⟩ := hl.chain_around hb
  rw [filter_cons_of_pos hc] at hrest
  have hcaddr : c.addr = b.addr + b.size := (tiles_append_cons.mp hl.tiles).2.1
  have hne := hl.addr_ne_zero (t := c) (by simp)
  unfold Heap.coalesceNext
  rw [hrest.1, hsize, if_pos ⟨hne, hcaddr.symm⟩]

theorem coalesceNext_of_used (hl : Laid place h (as ++ b :: bs)) (hb : b.free = true)
    (hbs : ∀ u ∈ bs.head?, u.free = false) : h.coalesceNext b.addr = h := by
  obtain ⟨-, hsize, hrest⟩ := hl.chain_around hb
  unfold Heap.coalesceNext
  rw [hsize, if_neg]
  rintro ⟨hne, hnext⟩
  cases bs with
  | nil => exact hne hrest
  | cons u bs =>
    have hu : u.free = false := hbs u rfl
    obtain ⟨-, huaddr, hbs'⟩ := tiles_append_cons.mp hl.tiles
    have husize := (hl.sizes u (by simp)).1
    rw [filter_cons_of_neg (by simp [hu])] at hrest
    have hstart := hrest.start
    cases hfilter : bs.filter free with
    | nil =>
      rw [hfilter] at hstart
      exact hne hstart
    | cons d ds =>
      have hd : d ∈ bs := (mem_filter.mp (hfilter ▸ mem_cons_self)).1
      have hbehind := (hbs'.mem_range hd).1
      rw [hfilter] at hstart
      change h.mem (b.addr + 8) = d.addr at hstart
      unfold last at huaddr hbehind
      omega

theorem coalesceNext (hl : Laid place h (as ++ b :: bs)) (hb : b.free = true) (hbs : Apart bs) :
    ∃ b' bs', b'.addr = b.addr ∧ b'.free = true ∧
      Laid place (h.coalesceNext b.addr) (as ++ b' :: bs') ∧ Apart bs' ∧
      (∀ u ∈ bs'.head?, u.free = false) ∧ used bs' = used bs := by
  by_cases hhead : ∀ u ∈ bs.head?, u.free = false
  · rw [hl.coalesceNext_of_used hb hhead]
    exact ⟨b, bs, rfl, hb, hl, hbs, hhead, rfl⟩
  · cases bs with
    | nil => exact absurd (by simp) hhead
    | cons c bs =>
      have hc : c.free = true := by simpa using hhead
      rw [hl.coalesceNext_of_free hb hc]
      obtain ⟨hrest, hfree⟩ := apart_cons.mp hbs
      exact ⟨⟨b.addr, b.size + c.size, true⟩, bs, rfl, rfl, hl.absorbNext hb hc, hrest, hfree hc,
        (used_cons_free hc bs).symm⟩

theorem findLinkTo_before {xs : List Tile} (hl : Laid place h (as ++ b :: bs))
    (hb : b.free = true) (hxs : as.filter Tile.free = xs ++ [a]) :
    h.findLinkTo b.addr Heap.walkLimit h.freeList = some a.addr := by
  have hchain := hl.chain
  rw [filter_append, filter_cons_of_pos hb, hxs, append_assoc, singleton_append] at hchain
  have hmem : ∀ d ∈ xs ++ [a], d ∈ as := fun d hd => (mem_filter.mp (hxs ▸ hd)).1
  apply findLinkTo_eq hchain
  · exact fun d hd => hl.addr_ne_zero (mem_append_left _ (hmem d hd))
  · intro d hd
    have := hl.before (hmem d hd)
    omega
  · have hlt := hl.length_lt
    have hle := length_filter_le free as
    rw [hxs, length_append] at hle
    rw [length_append] at hlt
    omega

theorem coalescePrev_of_free (hl : Laid place h (as ++ a :: b :: bs)) (ha : a.free = true)
    (hb : b.free = true) : h.coalescePrev b.addr = some (h.absorbNext a.addr) := by
  have hne := hl.addr_ne_zero (t := a) (by simp)
  have hsize := (hl.chain_around ha).2.1
  have hbaddr : b.addr = a.addr + a.size := (tiles_append_cons.mp hl.tiles).2.1
  have hxs : (as ++ [a]).filter free = as.filter free ++ [a] := by
    rw [filter_append, filter_cons_of_pos ha, filter_nil]
  have hl' : Laid place h ((as ++ [a]) ++ b :: bs) := by
    rw [append_assoc]
    exact hl
  unfold Heap.coalescePrev
  rw [hl'.findLinkTo_before hb hxs, Option.map_some, if_pos ⟨hne, by rw [hsize, hbaddr]⟩]

theorem coalescePrev_of_used {u : Tile} {xs : List Tile}
    (hl : Laid place h ((as ++ [u]) ++ b :: bs)) (hb : b.free = true) (hu : u.free = false)
    (hxs : as.filter Tile.free = xs ++ [a]) : h.coalescePrev b.addr = some h := by
  have hmem : a ∈ as ∧ a.free = true := mem_filter.mp (hxs ▸ by simp)
  have hxs' : (as ++ [u]).filter free = xs ++ [a] := by
    rw [filter_append, hxs, filter_cons_of_neg (by simp [hu]), filter_nil, append_nil]
  have hfind := hl.findLinkTo_before hb hxs'
  have hubefore := hl.before (u := u) (by simp)
  rw [append_assoc, singleton_append] at hl
  obtain ⟨hts, -⟩ := tiles_append_cons.mp hl.tiles
  have halast : a.addr + a.size ≤ u.addr := (hts.mem_range hmem.1).2
  have hsize : h.mem a.addr = a.size := by
    obtain ⟨cs, ds, rfl⟩ := append_of_mem hmem.1
    rw [append_assoc] at hl
    exact (hl.chain_around hmem.2).2.1
  unfold Heap.coalescePrev
  rw [hfind, Option.map_some, if_neg]
  omega

theorem coalescePrev (hl : Laid place h (as ++ b :: bs)) (hb : b.free = true) (has : Apart as)
    (hprev : as.filter Tile.free ≠ []) :
    ∃ h' b' as', h.coalescePrev b.addr = some h' ∧ b'.free = true ∧
      Laid place h' (as' ++ b' :: bs) ∧ Apart as' ∧
      (∀ u ∈ as'.getLast?, u.free = false) ∧ used as' = used as ∧
      ∀ x, (∀ t ∈ as, t.free = true → x ≠ t.addr ∧ x ≠ t.addr + 8) → h'.mem x = h.mem x := by
  rcases eq_nil_or_concat as with rfl | ⟨as, u, rfl⟩
  · exact absurd rfl hprev
  rw [concat_eq_append] at hl has hprev ⊢
  obtain ⟨hrest, hfree⟩ := apart_concat.mp has
  cases hu : u.free with
  | true =>
    rw [append_assoc, singleton_append] at hl
    refine ⟨_, _, as, hl.coalescePrev_of_free hu hb, rfl, hl.absorbNext hu hb, hrest, hfree hu, ?_,
      fun x hx => Heap.absorbNext_of_ne (hx u (by simp) hu)⟩
    rw [used_append, used_cons_free hu]
    exact (append_nil _).symm
  | false =>
    rw [filter_append, filter_cons_of_neg (by simp [hu]), filter_nil, append_nil] at hprev
    obtain ⟨xs, a, hxs⟩ := (eq_nil_or_concat _).resolve_left hprev
    rw [concat_eq_append] at hxs
    exact ⟨h, b, as ++ [u], hl.coalescePrev_of_used hb hu hxs, hb, hl, has, by simp [hu], rfl,
      fun _ _ => rfl⟩

end Laid
end SageOS
