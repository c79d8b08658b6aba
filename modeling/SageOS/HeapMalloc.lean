import SageOS.HeapTake

/-!
# Allocation

A request is served by the first free tile that is large enough, or from the part of the arena
behind the bump pointer. The tile is new among the ones in use, it is large enough, and it is zero
behind its header.
-/
namespace SageOS
open Tiling List Function Tile Heap Arena
variable {place : HeapPlace} {h : Heap} {as bs rest : List Tile} {b : Tile}
  {addr total need : ℕ} {tag : AllocTag}

variable {size : ℕ}

theorem needed_spec (hpos : size ≠ 0) (hsize : size ≤ sageArenaSize) :
    32 ≤ Arena.needed size ∧ Arena.needed size % 16 = 0 ∧ size + 16 ≤ Arena.needed size ∧
      Arena.needed size ≤ size + 31 := by
  have harena : sageArenaSize = 33554432 := rfl
  have hheader : allocHeaderSize = 16 := rfl
  unfold needed align
  omega

/-- A new tile in use, zero behind its header. -/
structure Fresh (h : Heap) (ts : List Tile) (size p : ℕ) (t : Tile) : Prop where
  mem : t ∈ ts
  used : t.free = false
  pointer : t.addr + 16 = p
  large : size + 16 ≤ t.size
  zero : ∀ a, p ≤ a → a < t.last → h.mem a = 0

/-- The request is served by a fresh tile beside the ones in use. -/
def Allocated (place : HeapPlace) (h : Heap) (ts : List Tile) (size p : ℕ) : Prop :=
  ∃ us t, Laid place h us ∧ Apart us ∧ (pointers us).Perm (p :: pointers ts) ∧ Fresh h us size p t

def SameOn (h h' : Heap) (t : Tile) : Prop := ∀ x, t.addr ≤ x ∧ x < t.last → h'.mem x = h.mem x

theorem fresh_writeHeader (hsize : 32 ≤ total) (hlarge : size + 16 ≤ total)
    (hhi : total < 2 ^ 64) : Fresh (h.writeHeader addr total tag)
      (as ++ ⟨addr, total, false⟩ :: rest) size (addr + 16) ⟨addr, total, false⟩ where
  mem := by simp
  used := rfl
  pointer := rfl
  large := hlarge
  zero a hlo hhi' := writeHeader_zero (by omega) hhi ⟨hlo, hhi'⟩

theorem perm_pointers_used (ha : used rest = used bs) :
    (pointers (as ++ ⟨addr, total, false⟩ :: rest)).Perm ((addr + 16) :: pointers (as ++ bs)) := by
  unfold pointers
  rw [used_append, used_append, used_cons_used rfl, ha, map_append, map_append]
  exact perm_middle

namespace Laid

theorem takeBlock_outside (hl : Laid place h (as ++ b :: bs)) (hb : b.free = true)
    (hneed : 32 ≤ need) (hfit : need ≤ b.size) {x : ℕ}
    (hx : ∀ t ∈ as ++ b :: bs, t.free = true → x < t.addr ∨ t.last ≤ x) :
    let t := h.takeBlock (linkOf none (as.filter free)) b.addr need
    (t.2.writeHeader b.addr t.1 tag).mem x = h.mem x := by
  have hsize : h.mem b.addr = b.size := (hl.chain_around hb).2.1
  have hlt := hl.size_lt (b := b) (by simp)
  have hout : x < b.addr ∨ b.addr + b.size ≤ x := hx b (by simp) hb
  have hlink : ∀ c ∈ as.filter free, x ≠ c.addr + 8 := by
    intro c hc
    obtain ⟨hc, hfree⟩ := mem_filter.mp hc
    have hclear := hx c (mem_append_left _ hc) hfree
    have hlarge := (hl.sizes c (mem_append_left _ hc)).1
    unfold last at hclear
    omega
  unfold Heap.takeBlock
  split_ifs
  · dsimp only
    rw [writeHeader_outside (by omega) (by omega) (by omega), mem_setLink_of_ne hlink]
    unfold Heap.store
    dsimp only
    rw [update_of_ne (by omega), update_of_ne (by omega)]
  · dsimp only
    rw [writeHeader_outside (by omega) (by omega) (by omega), mem_setLink_of_ne hlink]

theorem takeBlock (hl : Laid place h (as ++ b :: bs)) (ha : Apart (as ++ b :: bs))
    (hb : b.free = true) (hneed : 32 ≤ need) (halign : need % 16 = 0) (hfit : need ≤ b.size)
    {size : ℕ} (hlarge : size + 16 ≤ need) (tag : AllocTag) :
    let t := h.takeBlock (linkOf none (as.filter free)) b.addr need
    Allocated place (t.2.writeHeader b.addr t.1 tag) (as ++ b :: bs) size (b.addr + 16) := by
  have hsize : h.mem b.addr = b.size := (hl.chain_around hb).2.1
  have hlt := hl.size_lt (b := b) (by simp)
  have hsame : pointers (as ++ b :: bs) = pointers (as ++ bs) := by
    unfold pointers
    rw [used_append, used_append, used_cons_free hb]
  unfold Heap.takeBlock
  rw [hsize]
  by_cases hsplit : need + 32 ≤ b.size
  · rw [if_pos hsplit]
    have hlink : (h.store (b.addr + need) (b.size - need)).mem (b.addr + 8) =
        h.mem (b.addr + 8) := update_of_ne (by omega) _ _
    dsimp only
    rw [hlink]
    refine ⟨_, _, hl.split hb hneed halign hsplit, ha.split hb rfl, ?_,
      fresh_writeHeader hneed hlarge (by omega)⟩
    rw [hsame]
    exact perm_pointers_used (used_cons_free rfl bs)
  · rw [if_neg hsplit]
    refine ⟨_, _, hl.absorb hb, ha.use rfl, ?_, fresh_writeHeader (by omega) (by omega) hlt⟩
    rw [hsame]
    exact perm_pointers_used rfl

end Laid

theorem first_fit (need : ℕ) (ts : List Tile) :
    (∀ t ∈ ts, t.free = true → t.size < need) ∨ ∃ as b bs, ts = as ++ b :: bs ∧ b.free = true ∧
      need ≤ b.size ∧ ∀ a ∈ as, a.free = true → a.size < need := by
  cases hfind : ts.find? fun t => t.free && decide (need ≤ t.size) with
  | none =>
    left
    intro t ht hfree
    simpa [hfree] using find?_eq_none.mp hfind t ht
  | some b =>
    right
    obtain ⟨hb, as, bs, rfl, hsmall⟩ := find?_eq_some_iff_append.mp hfind
    rw [Bool.and_eq_true, decide_eq_true_iff] at hb
    refine ⟨as, b, bs, rfl, hb.1, hb.2, fun a ha hfree => ?_⟩
    simpa [hfree] using hsmall a ha

theorem Laid.findFit_cases {ts : List Tile} (hl : Laid place h ts) (need : ℕ) :
    (∀ t ∈ ts, t.free = true → t.size < need) ∧
        h.findFit need Heap.walkLimit none h.freeList = some none ∨
      ∃ as b bs, ts = as ++ b :: bs ∧ b.free = true ∧ need ≤ b.size ∧
        h.findFit need Heap.walkLimit none h.freeList =
          some (some (linkOf none (as.filter Tile.free), b.addr)) := by
  have hpos : ∀ t ∈ ts.filter free, t.addr ≠ 0 := fun t ht =>
    hl.addr_ne_zero (mem_filter.mp ht).1
  rcases first_fit need ts with hsmall | ⟨as, b, bs, rfl, hb, hroom, hsmall⟩
  · exact .inl ⟨hsmall, findFit_of_none hl.chain hpos
      (fun t ht => hsmall t (mem_filter.mp ht).1 (mem_filter.mp ht).2)
      ((length_filter_le _ ts).trans_lt hl.length_lt)⟩
  · have hchain := hl.chain
    rw [filter_append, filter_cons_of_pos hb] at hchain hpos
    have hlen : (as.filter free).length < walkLimit := by
      have hlt := hl.length_lt
      have hle := length_filter_le free as
      rw [length_append] at hlt
      omega
    exact .inr ⟨as, b, bs, rfl, hb, hroom, findFit_of_fit hchain hpos
      (fun a ha => hsmall a (mem_filter.mp ha).1 (mem_filter.mp ha).2) hroom hlen⟩

theorem sageMallocTagged_spec {ts : List Tile} (hl : Laid place h ts) (ha : Apart ts)
    (hsize : size ≤ sageArenaSize) (tag : AllocTag) :
    ∃ p h', h.sageMallocTagged place size tag = some (p, h') ∧
      (p = 0 ∧ h' = h ∨ Allocated place h' ts size p ∧ ∀ t ∈ used ts, SameOn h h' t) := by
  unfold sageMallocTagged
  by_cases hzero : size = 0
  · rw [if_pos hzero]
    exact ⟨0, h, rfl, .inl ⟨rfl, rfl⟩⟩
  rw [if_neg hzero]
  obtain ⟨hneed, halign, hlarge, hle⟩ := needed_spec hzero hsize
  rcases hl.findFit_cases (needed size) with ⟨-, hfind⟩ | ⟨as, b, bs, rfl, hb, hroom, hfind⟩
  · rw [hfind]
    by_cases hfull : sageArenaSize < (h.bump + needed size) % 2 ^ 64
    · rw [if_pos hfull]
      exact ⟨0, h, rfl, .inl ⟨rfl, rfl⟩⟩
    · rw [if_neg hfull]
      have hbound := hl.bound
      have harena : sageArenaSize = 33554432 := rfl
      rw [Nat.mod_eq_of_lt (by omega)] at hfull ⊢
      have hperm : (pointers (ts ++ [⟨place.base + h.bump, needed size, false⟩])).Perm
          ((place.base + h.bump + 16) :: pointers (ts ++ [])) := perm_pointers_used rfl
      rw [append_nil] at hperm
      refine ⟨_, _, rfl, .inr ⟨⟨_, _, hl.extend hneed halign (by omega), ha.concat rfl, hperm,
        fresh_writeHeader hneed hlarge (by omega)⟩, fun t ht x hx => ?_⟩⟩
      have hlast := (hl.tiles.mem_range (mem_used.mp ht).1).2
      exact writeHeader_outside (by omega) (by omega) (.inl (by omega))
  · rw [hfind]
    refine ⟨_, _, rfl, .inr ⟨hl.takeBlock ha hb hneed halign hroom hlarge tag, fun t ht x hx => ?_⟩⟩
    obtain ⟨ht, hused⟩ := mem_used.mp ht
    refine hl.takeBlock_outside hb hneed hroom fun u hu hfree => hl.outside ht hu ?_ hx
    rintro rfl
    exact Bool.noConfusion (hused.symm.trans hfree)

end SageOS
