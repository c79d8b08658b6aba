import SageOS.HeapRuns

/-!
# Requests of any size

Header, rounding, bump pointer and the product of a count and a size are computed in 64-bit words.
A request that does not fit the arena must be refused, but one that wraps can be taken for a small
one. Up to that, a block that is returned has the bytes that were asked for, and a reallocation
keeps the contents of all blocks.
-/
namespace SageOS
open Tiling HeapState List Heap
variable {place : HeapPlace} {h : Heap} {ts : List Tile}

def blockSize (n : ℕ) : ℕ := (n + 31) / 16 * 16

theorem needed_mod (n : ℕ) : Arena.needed (n % 2 ^ 64) = blockSize n % 2 ^ 64 := by
  have hheader : allocHeaderSize = 16 := rfl
  unfold Arena.needed Arena.align blockSize
  omega

/-- A request for `n` bytes that the arena can hold, or that is refused after its size is cut to
64 bits. -/
def SizeSafe (h : Heap) (ts : List Tile) (n : ℕ) : Prop :=
  n ≤ sageArenaSize ∨ n % 2 ^ 64 = 0 ∨
    (∀ t ∈ ts, t.free = true → t.size < blockSize n % 2 ^ 64) ∧
      sageArenaSize < (h.bump + blockSize n) % 2 ^ 64

theorem sageMallocTagged_null (hl : Laid place h ts) (n : ℕ) (tag : AllocTag) :
    ∃ p h', h.sageMallocTagged place (n % 2 ^ 64) tag = some (p, h') ∧
      (p = 0 ↔ n % 2 ^ 64 = 0 ∨ (∀ t ∈ ts, t.free = true → t.size < blockSize n % 2 ^ 64) ∧
        sageArenaSize < (h.bump + blockSize n) % 2 ^ 64) ∧ (p = 0 → h' = h) := by
  unfold sageMallocTagged
  rw [needed_mod]
  by_cases hzero : n % 2 ^ 64 = 0
  · rw [if_pos hzero]
    exact ⟨0, h, rfl, iff_of_true rfl (.inl hzero), fun _ => rfl⟩
  rw [if_neg hzero, or_iff_right hzero]
  rcases hl.findFit_cases (blockSize n % 2 ^ 64) with
    ⟨hsmall, hfind⟩ | ⟨as, b, bs, rfl, hb, hroom, hfind⟩
  · rw [hfind]
    dsimp only
    rw [Nat.add_mod_mod]
    split_ifs with hfull
    · exact ⟨0, h, rfl, iff_of_true rfl ⟨hsmall, hfull⟩, fun _ => rfl⟩
    · exact ⟨_, _, rfl, iff_of_false (Nat.succ_ne_zero _) fun hnull => hfull hnull.2, nofun⟩
  · rw [hfind]
    refine ⟨_, _, rfl, iff_of_false (Nat.succ_ne_zero _) fun hnull => ?_, nofun⟩
    have hlt := hnull.1 b (by simp) hb
    omega

theorem HeapState.Served.size_le {n p : ℕ} (hs : Served place h n p) : n ≤ sageArenaSize := by
  obtain ⟨-, ⟨hlo, hhi⟩, hlarge⟩ := hs
  omega

/-- The null pointer, or a block in the arena with room for `n` bytes. -/
def Grants (place : HeapPlace) (n : ℕ) (r : Option (ℕ × Heap)) : Prop :=
  ∃ p h', r = some (p, h') ∧ (p = 0 ∨ Served place h' n p)

theorem grants_iff (hl : Laid place h ts) (ha : Apart ts) (n : ℕ) (tag : AllocTag) :
    Grants place n (h.sageMallocTagged place (n % 2 ^ 64) tag) ↔ SizeSafe h ts n := by
  by_cases hn : n ≤ sageArenaSize
  · refine iff_of_true ?_ (.inl hn)
    have harena : sageArenaSize = 33554432 := rfl
    rw [Nat.mod_eq_of_lt (by omega)]
    obtain ⟨p, h', hrun, ⟨rfl, -⟩ | ⟨⟨us, t, hl', -, -, hfresh⟩, -⟩⟩ :=
      sageMallocTagged_spec hl ha hn tag
    · exact ⟨0, h', hrun, .inl rfl⟩
    · exact ⟨p, h', hrun, .inr (served_of_holds hl'
        ⟨t, hfresh.mem, hfresh.used, hfresh.pointer, hfresh.large⟩)⟩
  · obtain ⟨p, h', hrun, hnull, -⟩ := sageMallocTagged_null hl n tag
    unfold SizeSafe
    rw [or_iff_right hn, ← hnull]
    refine ⟨fun ⟨q, h'', hrun', hq⟩ => ?_, fun hp => ⟨p, h', hrun, .inl hp⟩⟩
    obtain ⟨rfl, rfl⟩ := Prod.mk.inj (Option.some.inj (hrun.symm.trans hrun'))
    exact hq.resolve_right fun hs => hn hs.size_le

theorem sizes_exact_iff (place : HeapPlace) (h : Heap) (ts : List Tile) (hl : Laid place h ts)
    (ha : Apart ts) (count size : ℕ) (hsize : size < 2 ^ 64) (tag : AllocTag) :
    Grants place size (h.sageMallocTagged place size tag) ∧
        Grants place (count * size) (h.sageCallocTagged place count size tag) ↔
      SizeSafe h ts size ∧ SizeSafe h ts (count * size) := by
  have hmalloc := grants_iff hl ha size tag
  rw [Nat.mod_eq_of_lt hsize] at hmalloc
  exact and_congr hmalloc (grants_iff hl ha (count * size) tag)

theorem sizes_exact_in_empty_arena :
    Grants placeAtPage 24 ((⟨0, 0, fun _ => 0⟩ : Heap).sageMallocTagged placeAtPage 24 .vm) ∧
      Grants placeAtPage (3 * 24)
        ((⟨0, 0, fun _ => 0⟩ : Heap).sageCallocTagged placeAtPage 3 24 .vm) :=
  (sizes_exact_iff placeAtPage _ [] (laid_empty _ _) List.IsChain.nil 3 24 (by decide) .vm).mpr
    ⟨.inl (by decide), .inl (by decide)⟩

/-- The first request is taken for one of no bytes at all, the second for one of 16 bytes. -/
theorem sizes_wrap_in_empty_arena : ¬ Grants placeAtPage (2 ^ 64 - 16)
        ((⟨0, 0, fun _ => 0⟩ : Heap).sageMallocTagged placeAtPage (2 ^ 64 - 16) .vm) ∧
      ¬ Grants placeAtPage ((2 ^ 60 + 1) * 16)
        ((⟨0, 0, fun _ => 0⟩ : Heap).sageCallocTagged placeAtPage (2 ^ 60 + 1) 16 .vm) := by
  have hempty := laid_empty placeAtPage fun _ => 0
  refine ⟨fun hgrants => ?_, fun hgrants => ?_⟩
  · have hsafe := (grants_iff hempty List.IsChain.nil (2 ^ 64 - 16) .vm).mp hgrants
    revert hsafe
    unfold SizeSafe
    decide
  · have hsafe := (grants_iff hempty List.IsChain.nil ((2 ^ 60 + 1) * 16) .vm).mp hgrants
    revert hsafe
    unfold SizeSafe
    decide

/-- The header and the contents of the block are kept. -/
def SameBlock (h h' : Heap) (p : ℕ) : Prop :=
  ∀ x, p - 16 ≤ x → x < p + h.mem (p - 16) → h'.mem x = h.mem x

/-- A reallocation of `ptr` that returned `q`, with the pointers in use before and after it. -/
structure Preserves (place : HeapPlace) (h h' : Heap) (live live' : List ℕ) (ptr size q : ℕ) :
    Prop where
  moved : q ≠ 0 → q ∈ live' ∧ Served place h' size q ∧
    ∀ i < min (h.mem (ptr - 16)) size, h'.mem (q + i) = h.mem (ptr + i)
  refused : q = 0 → 0 < size → ptr ∈ live' ∧ SameBlock h h' ptr
  others : ∀ r ∈ live, r ≠ ptr → r ∈ live' ∧ SameBlock h h' r

variable (place h ts) in
/-- The reallocation returns in a sound arena and preserves the blocks. -/
def ReallocPreserves (ptr size : ℕ) : Prop :=
  ∃ q h' us, h.sageRealloc place ptr size = some (q, h') ∧ Laid place h' us ∧ Apart us ∧
    (pointers us).Perm (liveAfter (pointers ts) ptr size q) ∧
    Preserves place h h' (pointers ts) (pointers us) ptr size q

theorem Preserves.of_carried {h' : Heap} {us : List Tile} {ptr size q : ℕ} (hl : Laid place h ts)
    (hl' : Laid place h' us) (hptr : ptr ∈ pointers ts)
    (hperm : (pointers us).Perm (liveAfter (pointers ts) ptr size q))
    (hholds : q ≠ 0 → Houses us size q) (hcarried : Carried h h' ts us ptr size q) :
    Preserves place h h' (pointers ts) (pointers us) ptr size q where
  moved hq := by
    obtain ⟨t, ht, hused, hpointer, -⟩ := hholds hq
    exact ⟨mem_pointers.mpr ⟨t, ht, hused, hpointer⟩, served_of_holds hl' (hholds hq),
      hcarried.data hq⟩
  refused hq hpos := by
    refine ⟨hperm.symm.subset ?_, fun x _ _ => by rw [hcarried.refused hq hpos.ne']⟩
    rw [liveAfter, if_pos hq, if_neg hpos.ne']
    exact hptr
  others r hr hne := by
    obtain ⟨t, ht, rfl⟩ := mem_map.mp hr
    obtain ⟨ht', hsame⟩ := hcarried.others t ht hne
    refine ⟨mem_map.mpr ⟨t, ht', rfl⟩, fun x hlo hhi => hsame x ?_⟩
    have hheader := hl.headers t (mem_used.mp ht).1 (mem_used.mp ht).2
    have hsize := (hl.sizes t (mem_used.mp ht).1).1
    rw [Nat.add_sub_cancel] at hlo hhi
    unfold Tile.last
    omega

theorem Laid.header_le {ptr : ℕ} (hl : Laid place h ts) (hptr : ptr ∈ pointers ts) :
    h.mem (ptr - 16) ≤ sageArenaSize := by
  obtain ⟨t, ht, hused, rfl⟩ := mem_pointers.mp hptr
  have hheader := hl.headers t ht hused
  obtain ⟨hlo, hhi⟩ := hl.tiles.mem_range ht
  have hbound := hl.bound
  unfold Tile.last at hhi
  rw [Nat.add_sub_cancel]
  omega

theorem not_reallocPreserves {ptr size : ℕ} (hl : Laid place h ts) (hptr : ptr ∈ pointers ts)
    (hsize : size < 2 ^ 64) (hwraps : ¬ SizeSafe h ts size) :
    ¬ ReallocPreserves place h ts ptr size := by
  rintro ⟨q, h', us, hrun, -, -, -, hpreserves⟩
  have hlarge : ¬ size ≤ sageArenaSize := fun hle => hwraps (.inl hle)
  have hheader := hl.header_le hptr
  by_cases hq : q = 0
  · obtain ⟨p, h₁, hmalloc, hnull, -⟩ := sageMallocTagged_null hl size (h.tagAt (ptr - 16 + 8))
    have hp : p ≠ 0 := fun hp => hwraps (.inr (hnull.mp hp))
    rw [Nat.mod_eq_of_lt hsize] at hmalloc
    rw [sageRealloc_of_lt (pointer_ne_zero hptr) (by omega) hmalloc, if_neg hp] at hrun
    obtain ⟨h₂, -, heq⟩ := Option.map_eq_some_iff.mp hrun
    exact hp ((Prod.mk.inj heq).1.trans hq)
  · exact hlarge (hpreserves.moved hq).2.1.size_le

theorem reallocPreserves_iff (place : HeapPlace) (h : Heap) (ts : List Tile)
    (hl : Laid place h ts) (ha : Apart ts) (ptr size : ℕ) (hptr : ptr ∈ pointers ts)
    (hsize : size < 2 ^ 64) : ReallocPreserves place h ts ptr size ↔ SizeSafe h ts size := by
  refine ⟨fun hpreserves => ?_, fun hsafe => ?_⟩
  · by_contra hwraps
    exact not_reallocPreserves hl hptr hsize hwraps hpreserves
  by_cases hle : size ≤ sageArenaSize
  · obtain ⟨q, h', us, hrun, hl', ha', hperm, hholds, hcarried⟩ :=
      sageRealloc_pointer hl ha hptr hle
    exact ⟨q, h', us, hrun, hl', ha', hperm, .of_carried hl hl' hptr hperm hholds hcarried⟩
  · have hheader := hl.header_le hptr
    obtain ⟨p, h₁, hmalloc, hnull, hkept⟩ := sageMallocTagged_null hl size (h.tagAt (ptr - 16 + 8))
    have hp : p = 0 := hnull.mpr (hsafe.resolve_left hle)
    obtain rfl := hkept hp
    rw [Nat.mod_eq_of_lt hsize] at hmalloc
    have hperm : (pointers ts).Perm (liveAfter (pointers ts) ptr size 0) := by
      rw [liveAfter, if_pos rfl, if_neg (by omega)]
    refine ⟨0, h₁, ts, ?_, hl, ha, hperm, .of_carried hl hl hptr hperm (fun h => absurd rfl h)
      ⟨fun h => absurd rfl h, fun _ _ => rfl, fun t ht _ => ⟨ht, fun _ _ => rfl⟩⟩⟩
    rw [sageRealloc_of_lt (pointer_ne_zero hptr) (by omega) hmalloc, if_pos hp]

def oneBlock : Heap :=
  { (⟨0, 0, fun _ => 0⟩ : Heap) with bump := 32 }.writeHeader placeAtPage.base 32 .vm

theorem laid_oneBlock : Laid placeAtPage oneBlock [⟨placeAtPage.base, 32, false⟩] := by
  exact (laid_empty placeAtPage fun _ => 0).extend (le_refl 32) (by decide) (by decide)

theorem realloc_of_oneBlock :
    ReallocPreserves placeAtPage oneBlock [⟨placeAtPage.base, 32, false⟩] 4112 100 :=
  (reallocPreserves_iff placeAtPage oneBlock _ laid_oneBlock (isChain_singleton _) 4112 100
    (by decide) (by decide)).mpr (.inl (by decide))

/-- The block is exchanged for one of no bytes at all. -/
theorem realloc_of_oneBlock_wraps : Laid placeAtPage oneBlock [⟨placeAtPage.base, 32, false⟩] ∧
    ¬ ReallocPreserves placeAtPage oneBlock [⟨placeAtPage.base, 32, false⟩] 4112
      (2 ^ 64 - 16) := by
  refine ⟨laid_oneBlock, not_reallocPreserves laid_oneBlock (by decide) (by decide) ?_⟩
  unfold SizeSafe
  decide

end SageOS
