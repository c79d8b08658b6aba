import SageOS.HeapLayout

/-!
# Tiles put in use

A request takes the start of a free tile, the whole of it, or the part of the arena behind the bump
pointer. In each case the tile in use is laid out once its header is written, because the links of
the free list do not lead into it any more.
-/
namespace SageOS
open Tiling List Function
variable {place : HeapPlace} {h : Heap} {as bs rest : List Tile} {b : Tile}
  {addr total need : ℕ} {tag : AllocTag}

namespace Heap

@[simp] theorem setLink_bump (prev : Option ℕ) (block : ℕ) :
    (h.setLink prev block).bump = h.bump := by
  cases prev with
  | none => rfl
  | some p => rfl

theorem user_size (hlo : 16 ≤ total) (hhi : total < 2 ^ 64) :
    (total + 2 ^ 64 - allocHeaderSize) % 2 ^ 64 = total - 16 := by
  have hheader : allocHeaderSize = 16 := rfl
  omega

theorem writeHeader_outside {a : ℕ} (hlo : 16 ≤ total) (hhi : total < 2 ^ 64)
    (ha : a < addr ∨ addr + total ≤ a) : (h.writeHeader addr total tag).mem a = h.mem a := by
  have hheader : allocHeaderSize = 16 := rfl
  unfold writeHeader
  unfold zeroFill storeTag store
  dsimp only
  rw [if_neg (by omega), update_of_ne (by omega), update_of_ne (by omega)]

theorem writeHeader_header (hlo : 16 ≤ total) (hhi : total < 2 ^ 64) :
    (h.writeHeader addr total tag).mem addr = total - 16 := by
  have hheader : allocHeaderSize = 16 := rfl
  unfold writeHeader
  rw [user_size hlo hhi]
  unfold zeroFill storeTag store
  dsimp only
  rw [if_neg (by omega), update_of_ne (by omega), update_self]

theorem writeHeader_zero {a : ℕ} (hlo : 16 ≤ total) (hhi : total < 2 ^ 64)
    (ha : addr + 16 ≤ a ∧ a < addr + total) : (h.writeHeader addr total tag).mem a = 0 := by
  have hheader : allocHeaderSize = 16 := rfl
  exact if_pos (by omega)

end Heap

theorem freeSeg_writeHeader {p q : ℕ} (hs : FreeSeg h.mem p as q) (hlo : 16 ≤ total)
    (hhi : total < 2 ^ 64) (hclear : ∀ t ∈ as, t.addr + 16 ≤ addr ∨ addr + total ≤ t.addr) :
    FreeSeg (h.writeHeader addr total tag).mem p as q := by
  refine hs.congr fun t ht => ?_
  have := hclear t ht
  exact ⟨Heap.writeHeader_outside hlo hhi (by omega), Heap.writeHeader_outside hlo hhi (by omega)⟩

namespace Laid

theorem chain_around (hl : Laid place h (as ++ b :: bs)) (hb : b.free = true) :
    FreeSeg h.mem h.freeList (as.filter Tile.free) b.addr ∧ h.mem b.addr = b.size ∧
      FreeSeg h.mem (h.mem (b.addr + 8)) (bs.filter Tile.free) 0 := by
  have hchain := hl.chain
  rw [filter_append, filter_cons_of_pos hb] at hchain
  exact freeSeg_append_cons.mp hchain

theorem spaced_before (hl : Laid place h (as ++ bs)) : Spaced (as.filter Tile.free) := by
  have hspaced := hl.spaced
  rw [filter_append] at hspaced
  exact (pairwise_append.mp hspaced).1

theorem header_ne_link (hl : Laid place h as) {t c : Tile} (ht : t ∈ as) (hc : c ∈ as) :
    t.addr ≠ c.addr + 8 := by
  have halign := hl.addr_aligned ht
  have halign' := hl.addr_aligned hc
  omega

theorem mem_around {t : Tile} (ht : t ∈ as ++ bs) : t ∈ as ++ b :: bs := by
  rcases mem_append.mp ht with ht | ht
  · exact mem_append_left _ ht
  · exact mem_append_right _ (mem_cons_of_mem b ht)

theorem notMem_around (hl : Laid place h (as ++ b :: bs)) : b ∉ as ++ bs := by
  intro hb
  rcases mem_append.mp hb with hb | hb
  · have := hl.before hb
    omega
  · have hlast : b.addr + b.size ≤ b.addr := hl.behind hb
    have := (hl.sizes b (by simp)).1
    omega

theorem size_lt (hl : Laid place h as) (hb : b ∈ as) : b.size < 2 ^ 64 := by
  have hlast : b.addr + b.size ≤ place.base + h.bump := (hl.tiles.mem_range hb).2
  have hbound := hl.bound
  have hfits := place.fits
  omega

theorem clear_around (hl : Laid place h (as ++ b :: bs)) {t : Tile} (ht : t ∈ as ++ bs) :
    t.addr + 32 ≤ b.addr ∨ b.addr + b.size ≤ t.addr := by
  rcases mem_append.mp ht with ht | ht
  · exact .inl (hl.before ht)
  · exact .inr (hl.behind ht)

theorem mem_setLink_header (hl : Laid place h (as ++ bs)) {g : Heap} {t : Tile}
    (ht : t ∈ as ++ bs) {q : ℕ} :
    (g.setLink (linkOf none (as.filter Tile.free)) q).mem t.addr = g.mem t.addr :=
  mem_setLink_of_ne fun _ hc =>
    hl.header_ne_link ht (mem_append_left _ (mem_filter.mp hc).1)

/-- The header of a tile in use is written at the start of the free tile `b`. -/
theorem take (hl : Laid place h (as ++ b :: bs)) {g : Heap} (cs : List Tile) (hneed : 32 ≤ need)
    (halign : need % 16 = 0) (hfit : need ≤ b.size)
    (hcs : ∀ c ∈ cs, c.free = true ∧ b.addr + need ≤ c.addr ∧ 32 ≤ c.size ∧ c.size % 16 = 0)
    (htiles : Tiles (b.addr + need) b.last cs) (hbump : g.bump = h.bump)
    (hchain : FreeSeg g.mem g.freeList (as.filter Tile.free ++ (cs ++ bs.filter Tile.free)) 0)
    (hkept : ∀ t ∈ as ++ bs, g.mem t.addr = h.mem t.addr) :
    Laid place (g.writeHeader b.addr need tag) (as ++ ⟨b.addr, need, false⟩ :: (cs ++ bs)) := by
  have hhi : need < 2 ^ 64 := hfit.trans_lt (hl.size_lt (by simp))
  refine hl.replace [b] (⟨b.addr, need, false⟩ :: cs) hbump ?_ ?_ ?_ ?_ ?_
  · rintro lo hi ⟨rfl, hlast⟩
    exact ⟨rfl, hlast ▸ htiles⟩
  · exact forall_mem_cons.mpr ⟨⟨hneed, halign⟩, fun c hc => (hcs c hc).2.2⟩
  · rw [filter_cons_of_neg (by simp), filter_eq_self.mpr fun c hc => (hcs c hc).1]
    refine freeSeg_writeHeader hchain (by omega) hhi fun t ht => ?_
    simp only [mem_append, mem_filter] at ht
    rcases ht with ⟨ht, -⟩ | ht | ⟨ht, -⟩
    · have := hl.before ht
      omega
    · exact .inr (hcs t ht).2.1
    · have := hl.clear_around (mem_append_right as ht)
      omega
  · intro t ht _
    have := hl.clear_around ht
    rw [Heap.writeHeader_outside (by omega) hhi (by omega), hkept t ht]
  · intro t ht hfree
    rcases mem_cons.mp ht with rfl | ht
    · exact Heap.writeHeader_header (by omega) hhi
    · cases (hcs t ht).1.symm.trans hfree

theorem absorb (hl : Laid place h (as ++ b :: bs)) (hb : b.free = true) :
    Laid place ((h.setLink (linkOf none (as.filter Tile.free)) (h.mem (b.addr + 8))).writeHeader
      b.addr b.size tag) (as ++ ⟨b.addr, b.size, false⟩ :: bs) := by
  obtain ⟨has, -, hbs⟩ := hl.chain_around hb
  obtain ⟨hsize, halign⟩ := hl.sizes b (by simp)
  refine hl.take [] hsize halign le_rfl nofun rfl (Heap.setLink_bump ..) ?_ fun t ht => ?_
  · refine freeSeg_splice has hl.spaced_before hbs fun a ha c hc => ?_
    have hclear := hl.before (mem_filter.mp ha).1
    have hclear' : b.addr + b.size ≤ c.addr := hl.behind (mem_filter.mp hc).1
    omega
  · exact hl.mem_setLink_header (mem_around ht)

theorem split (hl : Laid place h (as ++ b :: bs)) (hb : b.free = true) (hneed : 32 ≤ need)
    (halign : need % 16 = 0) (hfit : need + 32 ≤ b.size) :
    Laid place ((((h.store (b.addr + need) (b.size - need)).store (b.addr + need + 8)
      (h.mem (b.addr + 8))).setLink (linkOf none (as.filter Tile.free))
      (b.addr + need)).writeHeader b.addr need tag)
      (as ++ ⟨b.addr, need, false⟩ :: ⟨b.addr + need, b.size - need, true⟩ :: bs) := by
  obtain ⟨has, -, hbs⟩ := hl.chain_around hb
  obtain ⟨-, hsize⟩ := hl.sizes b (by simp)
  refine hl.take [⟨b.addr + need, b.size - need, true⟩] hneed halign (by omega) ?_ ⟨rfl, ?_⟩
    (Heap.setLink_bump ..) ?_ fun t ht => ?_
  · intro c hc
    obtain rfl := mem_singleton.mp hc
    exact ⟨rfl, le_rfl, by dsimp only; omega⟩
  · change b.addr + need + (b.size - need) = b.addr + b.size
    omega
  · refine freeSeg_link (c := ⟨b.addr + need, b.size - need, true⟩) has hl.spaced_before hbs
      (fun a ha => ?_) fun c hc => ?_
    · have := hl.before (mem_filter.mp ha).1
      dsimp only
      omega
    · have hbehind : b.addr + b.size ≤ c.addr := hl.behind (mem_filter.mp hc).1
      dsimp only
      omega
  · have := hl.clear_around ht
    rw [hl.mem_setLink_header (mem_around ht)]
    exact (update_of_ne (by omega) _ _).trans (update_of_ne (by omega) _ _)

theorem extend (hl : Laid place h as) (hneed : 32 ≤ need) (halign : need % 16 = 0)
    (hfit : h.bump + need ≤ sageArenaSize) :
    Laid place ({ h with bump := h.bump + need }.writeHeader (place.base + h.bump) need tag)
      (as ++ [⟨place.base + h.bump, need, false⟩]) := by
  have hfits := place.fits
  have hbefore : ∀ t ∈ as, t.addr + 32 ≤ place.base + h.bump := by
    intro t ht
    have hlast : t.addr + t.size ≤ place.base + h.bump := (hl.tiles.mem_range ht).2
    have := (hl.sizes t ht).1
    omega
  refine ⟨tiles_append_cons.mpr ⟨hl.tiles, Nat.add_assoc _ _ _⟩, hfit, ?_, ?_, ?_⟩
  · exact forall_mem_append.mpr ⟨hl.sizes, by simpa using ⟨hneed, halign⟩⟩
  · rw [filter_append, filter_cons_of_neg (by simp), filter_nil, append_nil]
    refine freeSeg_writeHeader hl.chain (by omega) (by omega) fun t ht => .inl ?_
    exact (Nat.add_le_add_left (by omega) _).trans (hbefore t (mem_filter.mp ht).1)
  · intro t ht hfree
    rcases mem_append.mp ht with ht | ht
    · have := hbefore t ht
      rw [Heap.writeHeader_outside (by omega) (by omega) (by omega)]
      exact hl.headers t ht hfree
    · obtain rfl := mem_singleton.mp ht
      exact Heap.writeHeader_header (by omega) (by omega)

end Laid
end SageOS
