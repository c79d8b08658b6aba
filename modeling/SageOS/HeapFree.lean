import SageOS.HeapCoalesce
import SageOS.HeapMalloc

/-!
# Freeing and reallocation

`sage_free` finds the place of the tile in the free list, links it and merges it with its
neighbours, so that no two neighbours are free afterwards. `sage_realloc` keeps a block that is
large enough, and otherwise copies it into a new one before it frees it.
-/
namespace SageOS
open Tiling List Tile
variable {place : HeapPlace} {h : Heap} {as bs ts : List Tile} {b : Tile}
namespace Heap

theorem total_size {size : ℕ} (hlo : 16 ≤ size) (hhi : size + 15 < 2 ^ 64)
    (halign : size % 16 = 0) :
    Arena.align ((size - 16 + allocHeaderSize) % 2 ^ 64) = size := by
  have hheader : allocHeaderSize = 16 := rfl
  unfold Arena.align
  omega

end Heap

theorem linkOf_eq_none : linkOf none as = none ↔ as = [] := by
  rcases eq_nil_or_concat as with rfl | ⟨as, b, rfl⟩
  · exact ⟨fun _ => rfl, fun _ => rfl⟩
  · rw [concat_eq_append, linkOf_concat]
    simp

theorem sageFree_spec (hl : Laid place h (as ++ b :: bs)) (ha : Apart (as ++ b :: bs))
    (hb : b.free = false) : ∃ h' ts, h.sageFree (b.addr + 16) = some h' ∧ Laid place h' ts ∧
      Apart ts ∧ used ts = used (as ++ bs) ∧ ∀ t ∈ used (as ++ bs), SameOn h h' t := by
  obtain ⟨has, hbs, -⟩ := apart_append_cons.mp ha
  obtain ⟨hlo, halign⟩ := hl.sizes b (by simp)
  have hhi : b.size + 15 < 2 ^ 64 := by
    have hlast : b.addr + b.size ≤ place.base + h.bump := (hl.tiles.mem_range (by simp)).2
    have hbound := hl.bound
    have hfits := place.fits
    omega
  have hheader := hl.headers b (by simp) hb
  have hplace : (h.store b.addr b.size).findPlace b.addr Heap.walkLimit none h.freeList =
      some (linkOf none (as.filter free), startOf (bs.filter free) 0) := by
    have hchain := hl.chain
    rw [filter_append, filter_cons_of_neg (by simp [hb])] at hchain
    apply findPlace_eq (hchain.store fun d hd => ?_)
    · exact fun d hd => hl.addr_ne_zero (mem_append_left _ (mem_filter.mp hd).1)
    · intro d hd
      have := hl.before (mem_filter.mp hd).1
      omega
    · intro d hd
      have : b.addr + b.size ≤ d.addr := hl.behind (mem_filter.mp hd).1
      omega
    · have hlt := hl.length_lt
      have hle := length_filter_le free as
      rw [length_append] at hlt
      omega
    · rcases mem_append.mp hd with hd | hd
      · have := hl.before (mem_filter.mp hd).1
        omega
      · have : b.addr + b.size ≤ d.addr := hl.behind (mem_filter.mp hd).1
        omega
  -- The free tiles and the new one are the only ones that are written to.
  have hclear : ∀ t ∈ used (as ++ bs), ∀ x, t.addr ≤ x ∧ x < t.last → ∀ u ∈ as ++ b :: bs,
      u.free = true ∨ u = b → x ≠ u.addr ∧ x ≠ u.addr + 8 := by
    intro t ht x hx u hu hu'
    obtain ⟨ht, hused⟩ := mem_used.mp ht
    have hne : u ≠ t := by
      rintro rfl
      rcases hu' with hfree | rfl
      · exact Bool.noConfusion (hused.symm.trans hfree)
      · exact hl.notMem_around ht
    have hout := hl.outside (Laid.mem_around ht) hu hne hx
    have hlarge := (hl.sizes u hu).1
    unfold last at hout
    omega
  have hsame : ∀ t ∈ used (as ++ bs), SameOn h
      ((((h.store b.addr b.size).store (b.addr + 8) (startOf (bs.filter free) 0)).setLink
        (linkOf none (as.filter free)) b.addr).coalesceNext b.addr) t := by
    intro t ht x hx
    have hxb := hclear t ht x hx b (by simp) (.inr rfl)
    have hlink : ∀ c ∈ as.filter free, x ≠ c.addr + 8 := fun c hc =>
      (hclear t ht x hx c (mem_append_left _ (mem_filter.mp hc).1) (.inl (mem_filter.mp hc).2)).2
    rw [Heap.coalesceNext_of_ne hxb, mem_setLink_of_ne hlink]
    exact (Function.update_of_ne hxb.2 _ _).trans (Function.update_of_ne hxb.1 _ _)
  obtain ⟨b₁, bs₁, hb₁, hfree₁, hl₁, hbs₁, hhead₁, hused₁⟩ := (hl.insert hb).coalesceNext rfl hbs
  unfold Heap.sageFree
  have hblock : b.addr + 16 - allocHeaderSize = b.addr := by
    unfold allocHeaderSize
    omega
  dsimp only
  rw [hblock, hheader, Heap.total_size (by omega) hhi halign]
  rw [show (h.store b.addr b.size).freeList = h.freeList from rfl, hplace]
  dsimp only at hl₁ ⊢
  by_cases hprev : as.filter free = []
  · rw [if_pos (linkOf_eq_none.mpr hprev)]
    refine ⟨_, _, rfl, hl₁, ?_, ?_, hsame⟩
    · refine apart_append_cons.mpr ⟨has, hbs₁, fun _ => ⟨fun u hu => ?_, hhead₁⟩⟩
      have := filter_eq_nil_iff.mp hprev u (mem_of_getLast? hu)
      simpa using this
    · rw [used_append, used_cons_free hfree₁, hused₁, used_append]
  · rw [if_neg fun hnone => hprev (linkOf_eq_none.mp hnone), ← hb₁]
    rw [← hb₁] at hl₁
    obtain ⟨h₂, b₂, as₂, hrun, hfree₂, hl₂, has₂, hlast₂, hused₂, hkept⟩ :=
      hl₁.coalescePrev hfree₁ has hprev
    refine ⟨h₂, _, hrun, hl₂, apart_append_cons.mpr ⟨has₂, hbs₁, fun _ => ⟨hlast₂, hhead₁⟩⟩, ?_,
      fun t ht x hx => ?_⟩
    · rw [used_append, used_cons_free hfree₂, hused₁, hused₂, used_append]
    · rw [hkept x fun u hu hfree =>
        hclear t ht x hx u (mem_append_left _ hu) (.inl hfree), hb₁]
      exact hsame t ht x hx

theorem pointer_ne_zero {p : ℕ} (hp : p ∈ pointers ts) : p ≠ 0 := by
  obtain ⟨t, -, -, rfl⟩ := mem_pointers.mp hp
  omega

theorem Laid.nodup_pointers (hl : Laid place h ts) : (pointers ts).Nodup := by
  unfold pointers used List.Nodup
  rw [pairwise_map]
  apply List.Pairwise.filter
  apply hl.tiles.disjoint.imp_of_mem
  intro t u ht _ htu
  have hsize := (hl.sizes t ht).1
  unfold last at htu
  omega

theorem sageFree_pointer (hl : Laid place h ts) (ha : Apart ts) {p : ℕ} (hp : p ∈ pointers ts) :
    ∃ h' us, h.sageFree p = some h' ∧ Laid place h' us ∧ Apart us ∧
      (pointers us).Perm ((pointers ts).erase p) ∧
      ∀ t ∈ used ts, t.addr + 16 ≠ p → t ∈ used us ∧ SameOn h h' t := by
  obtain ⟨b, hmem, hb, rfl⟩ := mem_pointers.mp hp
  obtain ⟨as, bs, rfl⟩ := append_of_mem hmem
  obtain ⟨h', us, hrun, hl', ha', hused, hsame⟩ := sageFree_spec hl ha hb
  refine ⟨h', us, hrun, hl', ha', ?_, fun t ht hne => ?_⟩
  · have hperm : (pointers (as ++ b :: bs)).Perm ((b.addr + 16) :: pointers us) := by
      unfold pointers
      rw [hused, used_append, used_append, used_cons_used hb, map_append, map_append]
      exact perm_middle
    have herase := hperm.erase (b.addr + 16)
    rw [erase_cons_head] at herase
    exact herase.symm
  · have hmem : t ∈ used (as ++ bs) := by
      rw [used_append]
      rw [used_append, used_cons_used hb] at ht
      rcases mem_append.mp ht with ht | ht
      · exact mem_append_left _ ht
      · rcases mem_cons.mp ht with rfl | ht
        · exact absurd rfl hne
        · exact mem_append_right _ ht
    exact ⟨hused ▸ hmem, hsame t hmem⟩

def Houses (ts : List Tile) (size p : ℕ) : Prop :=
  ∃ t ∈ ts, t.free = false ∧ t.addr + 16 = p ∧ size + 16 ≤ t.size

/-- The pointers in use after a reallocation that returns `p`. -/
def liveAfter (live : List ℕ) (ptr size p : ℕ) : List ℕ :=
  if p = 0 then if size = 0 then live.erase ptr else live else p :: live.erase ptr

theorem liveAfter_perm {live live' : List ℕ} (hperm : live.Perm live') (ptr size p : ℕ) :
    (liveAfter live ptr size p).Perm (liveAfter live' ptr size p) := by
  unfold liveAfter
  split_ifs
  · exact hperm.erase ptr
  · exact hperm
  · exact (hperm.erase ptr).cons p

/-- The start of the block is in the returned one, and the other blocks are as before. -/
structure Carried (h h' : Heap) (ts us : List Tile) (ptr size p : ℕ) : Prop where
  data : p ≠ 0 → ∀ i < min (h.mem (ptr - 16)) size, h'.mem (p + i) = h.mem (ptr + i)
  refused : p = 0 → size ≠ 0 → h' = h
  others : ∀ t ∈ used ts, t.addr + 16 ≠ ptr → t ∈ used us ∧ SameOn h h' t

theorem Laid.mem_used_of_pointer {h' : Heap} {us : List Tile} {t : Tile} (hl : Laid place h ts)
    (hl' : Laid place h' us) (ht : t ∈ used ts) (hp : t.addr + 16 ∈ pointers us)
    (hsame : h'.mem t.addr = h.mem t.addr) : t ∈ used us := by
  obtain ⟨u, hu, hused, haddr⟩ := mem_pointers.mp hp
  obtain ⟨ht, htused⟩ := mem_used.mp ht
  have hheader := hl.headers t ht htused
  have hheader' := hl'.headers u hu hused
  have hsize' := (hl'.sizes u hu).1
  have heq : u = t := by
    obtain ⟨a, n, f⟩ := u
    obtain ⟨a', n', f'⟩ := t
    obtain rfl : a = a' := by simpa using haddr
    rw [Tile.mk.injEq]
    exact ⟨rfl, by dsimp only at *; omega, hused.trans htused.symm⟩
  exact heq ▸ mem_used.mpr ⟨hu, hused⟩

theorem Heap.sageRealloc_of_lt {h₁ : Heap} {ptr size p : ℕ} (hne : ptr ≠ 0)
    (hgrow : h.mem (ptr - 16) < size)
    (hmalloc : h.sageMallocTagged place size (h.tagAt (ptr - 16 + 8)) = some (p, h₁)) :
    h.sageRealloc place ptr size = if p = 0 then some (0, h₁)
      else ((h₁.copy p ptr (h.mem (ptr - 16))).sageFree ptr).map fun h₂ => (p, h₂) := by
  unfold Heap.sageRealloc
  rw [if_neg hne, if_neg (by omega)]
  rw [show ptr - allocHeaderSize = ptr - 16 from rfl, if_neg (by omega), hmalloc]

variable {ptr size : ℕ}

theorem sageRealloc_grow (hl : Laid place h ts) (ha : Apart ts)
    (hptr : ptr ∈ pointers ts) (hsize : size ≤ sageArenaSize) (hzero : size ≠ 0)
    (hgrow : h.mem (ptr - 16) < size) :
    ∃ p h' us, h.sageRealloc place ptr size = some (p, h') ∧ Laid place h' us ∧ Apart us ∧
      (pointers us).Perm (liveAfter (pointers ts) ptr size p) ∧ (p ≠ 0 → Houses us size p) ∧
      Carried h h' ts us ptr size p := by
  have hne := pointer_ne_zero hptr
  obtain ⟨p, h₁, hmalloc, hresult⟩ :=
    sageMallocTagged_spec hl ha hsize (h.tagAt (ptr - 16 + 8))
  rw [Heap.sageRealloc_of_lt hne hgrow hmalloc]
  rcases hresult with ⟨rfl, rfl⟩ | ⟨⟨us, t, hl₁, ha₁, hperm, hfresh⟩, hsame₁⟩
  · refine ⟨0, _, ts, if_pos rfl, hl, ha, ?_, fun h => absurd rfl h,
      ⟨fun h => absurd rfl h, fun _ _ => rfl, fun t ht _ => ⟨ht, fun _ _ => rfl⟩⟩⟩
    unfold liveAfter
    rw [if_pos rfl, if_neg hzero]
  · have hp : p ≠ 0 := by
      have := hfresh.pointer
      omega
    have hmem : ptr ∈ pointers us := hperm.symm.subset (mem_cons_of_mem p hptr)
    have hnew : p ∉ pointers ts := (nodup_cons.mp (hperm.nodup_iff.mp hl₁.nodup_pointers)).1
    have hnew' : p ≠ ptr := fun heq => hnew (heq ▸ hptr)
    have hlarge := hfresh.large
    have hpointer := hfresh.pointer
    have hcopy : ∀ a, a < t.addr + 16 ∨ t.last ≤ a →
        (h₁.copy p ptr (h.mem (ptr - 16))).mem a = h₁.mem a := by
      intro a hout
      unfold last at hout
      exact if_neg (by omega)
    have hl₂ : Laid place (h₁.copy p ptr (h.mem (ptr - 16))) us :=
      hl₁.write_inside hfresh.mem hfresh.used hcopy
    obtain ⟨h₃, vs, hfree, hl₃, ha₃, hperm₃, hkept⟩ := sageFree_pointer hl₂ ha₁ hmem
    obtain ⟨hfreshV, hsameV⟩ := hkept t (mem_used.mpr ⟨hfresh.mem, hfresh.used⟩) (by omega)
    -- A block of before is a tile next to the new one, and nothing is written to it.
    have hbefore : ∀ u ∈ used ts, u ∈ used us ∧
        ∀ x, u.addr ≤ x ∧ x < u.last → (h₁.copy p ptr (h.mem (ptr - 16))).mem x = h.mem x := by
      intro u hu
      have hupointer : u.addr + 16 ∈ pointers ts := mem_map.mpr ⟨u, hu, rfl⟩
      have husize := (hl.sizes u (mem_used.mp hu).1).1
      have hmemu : u ∈ used us := hl.mem_used_of_pointer hl₁ hu
        (hperm.symm.subset (mem_cons_of_mem p hupointer))
        (hsame₁ u hu u.addr ⟨le_rfl, by unfold last; omega⟩)
      refine ⟨hmemu, fun x hx => ?_⟩
      have hout := hl₁.outside (mem_used.mp hmemu).1 hfresh.mem
        (fun heq => hnew (by rw [← hpointer, heq]; exact hupointer)) hx
      rw [hcopy x (by omega), hsame₁ u hu x hx]
    refine ⟨p, h₃, vs, ?_, hl₃, ha₃, ?_, fun _ => ?_, fun _ i hi => ?_, fun h => absurd h hp,
      fun u hu hne' => ?_⟩
    · rw [if_neg hp, hfree]
      rfl
    · unfold liveAfter
      rw [if_neg hp]
      have herase := hperm.erase ptr
      rw [erase_cons_tail (by simpa using hnew')] at herase
      exact hperm₃.trans herase
    · obtain ⟨ht, hused⟩ := mem_used.mp hfreshV
      exact ⟨t, ht, hused, hpointer, hlarge⟩
    · obtain ⟨b, hb, hbused, rfl⟩ := mem_pointers.mp hptr
      have hbu := mem_used.mpr ⟨hb, hbused⟩
      have hheader := hl.headers b hb hbused
      rw [Nat.add_sub_cancel, hheader] at hi hgrow
      rw [hsameV _ (by unfold last; omega)]
      have hdata : (h₁.copy p (b.addr + 16) (h.mem (b.addr + 16 - 16))).mem (p + i) =
          h₁.mem (b.addr + 16 + i) := by
        unfold Heap.copy
        dsimp only
        rw [Nat.add_sub_cancel, hheader, if_pos (by omega), Nat.add_sub_cancel_left]
      exact hdata.trans (hsame₁ b hbu _ (by unfold last; omega))
    · obtain ⟨hu₁, hsame₂⟩ := hbefore u hu
      obtain ⟨hu₃, hsame₃⟩ := hkept u hu₁ hne'
      exact ⟨hu₃, fun x hx => (hsame₃ x hx).trans (hsame₂ x hx)⟩

theorem sageRealloc_pointer (hl : Laid place h ts) (ha : Apart ts)
    (hptr : ptr ∈ pointers ts) (hsize : size ≤ sageArenaSize) :
    ∃ p h' us, h.sageRealloc place ptr size = some (p, h') ∧ Laid place h' us ∧ Apart us ∧
      (pointers us).Perm (liveAfter (pointers ts) ptr size p) ∧ (p ≠ 0 → Houses us size p) ∧
      Carried h h' ts us ptr size p := by
  have hne := pointer_ne_zero hptr
  by_cases hzero : size = 0
  · obtain ⟨h', us, hfree, hl', ha', hperm, hkept⟩ := sageFree_pointer hl ha hptr
    refine ⟨0, h', us, ?_, hl', ha', ?_, fun h => absurd rfl h, fun h => absurd rfl h,
      fun _ h => absurd hzero h, hkept⟩
    · unfold Heap.sageRealloc
      rw [if_neg hne, if_pos hzero, hfree]
      rfl
    · unfold liveAfter
      rw [if_pos rfl, if_pos hzero]
      exact hperm
  · by_cases hkeep : size ≤ h.mem (ptr - 16)
    · refine ⟨ptr, h, ts, ?_, hl, ha, ?_, fun _ => ?_, fun _ _ _ => rfl, fun h => absurd h hne,
        fun t ht _ => ⟨ht, fun _ _ => rfl⟩⟩
      · unfold Heap.sageRealloc
        rw [if_neg hne, if_neg hzero]
        exact if_pos hkeep
      · unfold liveAfter
        rw [if_neg hne]
        exact perm_cons_erase hptr
      · obtain ⟨t, ht, hused, rfl⟩ := mem_pointers.mp hptr
        have hheader := hl.headers t ht hused
        rw [Nat.add_sub_cancel, hheader] at hkeep
        exact ⟨t, ht, hused, rfl, by omega⟩
    · exact sageRealloc_grow hl ha hptr hsize hzero (by omega)

theorem sageRealloc_spec (hl : Laid place h ts) (ha : Apart ts)
    (hptr : ptr = 0 ∨ ptr ∈ pointers ts) (hsize : size ≤ sageArenaSize) :
    ∃ p h' us, h.sageRealloc place ptr size = some (p, h') ∧ Laid place h' us ∧ Apart us ∧
      (pointers us).Perm (liveAfter (pointers ts) ptr size p) ∧ (p ≠ 0 → Houses us size p) := by
  rcases hptr with rfl | hptr
  · have herase : (pointers ts).erase 0 = pointers ts :=
      erase_of_not_mem fun hmem => pointer_ne_zero hmem rfl
    obtain ⟨p, h', hmalloc, hresult⟩ := sageMallocTagged_spec hl ha hsize .kernel
    refine ⟨p, h', ?_⟩
    rcases hresult with ⟨rfl, rfl⟩ | ⟨⟨us, t, hl', ha', hperm, hfresh⟩, -⟩
    · refine ⟨ts, hmalloc, hl, ha, ?_, fun h => absurd rfl h⟩
      unfold liveAfter
      rw [if_pos rfl, herase, ite_self]
    · refine ⟨us, hmalloc, hl', ha', ?_,
        fun _ => ⟨t, hfresh.mem, hfresh.used, hfresh.pointer, hfresh.large⟩⟩
      unfold liveAfter
      have := hfresh.pointer
      rw [if_neg (by omega), herase]
      exact hperm
  · obtain ⟨p, h', us, hrun, hl', ha', hperm, hholds, -⟩ := sageRealloc_pointer hl ha hptr hsize
    exact ⟨p, h', us, hrun, hl', ha', hperm, hholds⟩

end SageOS
