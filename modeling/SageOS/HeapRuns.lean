import SageOS.GuardedRun
import SageOS.HeapFree

/-!
# Runs of the allocator

The arena starts empty, with any contents. A client asks for blocks of at most the size of the
arena, gives back and resizes only blocks that it was given and has not given back, and stores only
into such blocks. In every such run each call returns, the blocks in use and the free ones tile the
used part of the arena, and free blocks never touch.
-/
namespace SageOS
open Tiling GuardedRun List Tile

inductive HeapCall
  | malloc (size : ℕ) (tag : AllocTag)
  | free (ptr : ℕ)
  | realloc (ptr size : ℕ)
  | write (addr value : ℕ)
  deriving DecidableEq, Repr

/-- The allocator, and the pointers that it has returned and that are not freed. -/
structure HeapState where
  heap : Heap
  live : List ℕ

namespace HeapState
variable (place : HeapPlace)

def start (mem : ℕ → ℕ) : HeapState := ⟨⟨0, 0, mem⟩, []⟩

def exec (s : HeapState) : HeapCall → Option (ℕ × HeapState)
  | .malloc size tag =>
    (s.heap.sageMallocTagged place size tag).map fun r =>
      (r.1, ⟨r.2, if r.1 = 0 then s.live else r.1 :: s.live⟩)
  | .free ptr => (s.heap.sageFree ptr).map fun h => (0, ⟨h, s.live.erase ptr⟩)
  | .realloc ptr size =>
    (s.heap.sageRealloc place ptr size).map fun r => (r.1, ⟨r.2, liveAfter s.live ptr size r.1⟩)
  | .write addr value => some (0, ⟨s.heap.store addr value, s.live⟩)

def step (s : HeapState) (c : HeapCall) : HeapState := ((s.exec place c).map Prod.snd).getD s

/-- What the client keeps to. -/
def Proper (s : HeapState) : HeapCall → Prop
  | .malloc size _ => size ≤ sageArenaSize
  | .free ptr => ptr = 0 ∨ ptr ∈ s.live
  | .realloc ptr size => (ptr = 0 ∨ ptr ∈ s.live) ∧ size ≤ sageArenaSize
  | .write addr _ => addr % 8 = 0 ∧ ∃ p ∈ s.live, p ≤ addr ∧ addr + 8 ≤ p + s.heap.mem (p - 16)

instance (s : HeapState) (c : HeapCall) : Decidable (s.Proper c) := by
  cases c <;> unfold Proper <;> infer_instance

/-- Blocks in use and free blocks tile the used part of the arena; the free list holds the free
ones by address, and no two of them touch. -/
def Sound (s : HeapState) : Prop :=
  ∃ ts, Laid place s.heap ts ∧ (pointers ts).Perm s.live ∧
    (ts.filter Tile.free).Pairwise fun t u => t.last < u.addr

/-- An aligned block inside of the arena that is as large as asked for. -/
structure Served (h : Heap) (size p : ℕ) : Prop where
  aligned : p % 16 = 0
  inside : place.base + 16 ≤ p ∧ p + h.mem (p - 16) ≤ place.base + sageArenaSize
  large : size ≤ h.mem (p - 16)

/-- What a call returns: a block, or the null pointer. -/
def Returned (s : HeapState) (p : ℕ) : HeapCall → Prop
  | .malloc size _ => p = 0 ∨ p ∈ s.live ∧ Served place s.heap size p ∧
      ∀ a, p ≤ a → a < p + s.heap.mem (p - 16) → s.heap.mem a = 0
  | .realloc _ size => p = 0 ∨ p ∈ s.live ∧ Served place s.heap size p
  | _ => True

def Kept (s : HeapState) : Prop :=
  ∃ ts, Laid place s.heap ts ∧ Apart ts ∧ (pointers ts).Perm s.live

variable {place} {s : HeapState} {mem : ℕ → ℕ}

theorem kept_start (place : HeapPlace) (mem : ℕ → ℕ) : (start mem).Kept place :=
  ⟨[], laid_empty place mem, List.IsChain.nil, List.Perm.refl _⟩

theorem Kept.sound (hs : s.Kept place) : s.Sound place := by
  obtain ⟨ts, hl, ha, hperm⟩ := hs
  refine ⟨ts, hl, hperm, hl.tiles.gaps ha fun t ht => ?_⟩
  have := (hl.sizes t ht).1
  omega

theorem served_of_holds {h : Heap} {ts : List Tile} {size p : ℕ} (hl : Laid place h ts)
    (hp : Houses ts size p) : Served place h size p := by
  obtain ⟨t, ht, hused, rfl, hlarge⟩ := hp
  have hheader := hl.headers t ht hused
  have halign := hl.addr_aligned ht
  obtain ⟨hlo, hhi⟩ := hl.tiles.mem_range ht
  have hbound := hl.bound
  unfold last at hhi
  refine ⟨by omega, ⟨by omega, ?_⟩, ?_⟩
  · rw [Nat.add_sub_cancel, hheader]
    omega
  · rw [Nat.add_sub_cancel, hheader]
    omega

theorem exec_malloc (hs : s.Kept place) {size : ℕ} (hsize : size ≤ sageArenaSize)
    (tag : AllocTag) : ∃ p s', s.exec place (.malloc size tag) = some (p, s') ∧ s'.Kept place ∧
      s'.Returned place p (.malloc size tag) := by
  obtain ⟨ts, hl, ha, hperm⟩ := hs
  obtain ⟨p, h', hrun, hresult⟩ := sageMallocTagged_spec hl ha hsize tag
  refine ⟨p, ⟨h', if p = 0 then s.live else p :: s.live⟩, ?_, ?_⟩
  · rw [exec, hrun]
    rfl
  rcases hresult with ⟨rfl, rfl⟩ | ⟨⟨us, t, hl', ha', hperm', hfresh⟩, -⟩
  · exact ⟨⟨ts, hl, ha, hperm⟩, .inl rfl⟩
  · have hpointer := hfresh.pointer
    rw [if_neg (by omega)]
    refine ⟨⟨us, hl', ha', hperm'.trans (hperm.cons p)⟩, .inr ⟨mem_cons_self, ?_, ?_⟩⟩
    · exact served_of_holds hl' ⟨t, hfresh.mem, hfresh.used, hpointer, hfresh.large⟩
    · intro a hlo hhi
      apply hfresh.zero a hlo
      have hheader := hl'.headers t hfresh.mem hfresh.used
      rw [← hpointer, Nat.add_sub_cancel, hheader] at hhi
      unfold last
      omega

theorem exec_free (hs : s.Kept place) {ptr : ℕ} (hptr : ptr = 0 ∨ ptr ∈ s.live) :
    ∃ p s', s.exec place (.free ptr) = some (p, s') ∧ s'.Kept place := by
  obtain ⟨ts, hl, ha, hperm⟩ := hs
  rcases hptr with rfl | hptr
  · have hzero : 0 ∉ s.live := fun hmem => pointer_ne_zero (hperm.symm.subset hmem) rfl
    refine ⟨0, ⟨s.heap, s.live.erase 0⟩, rfl, ts, hl, ha, ?_⟩
    rw [erase_of_not_mem hzero]
    exact hperm
  · obtain ⟨h', us, hrun, hl', ha', hperm', -⟩ := sageFree_pointer hl ha (hperm.symm.subset hptr)
    refine ⟨0, ⟨h', s.live.erase ptr⟩, ?_, us, hl', ha', hperm'.trans (hperm.erase ptr)⟩
    rw [exec, hrun]
    rfl

theorem exec_realloc (hs : s.Kept place) {ptr size : ℕ} (hptr : ptr = 0 ∨ ptr ∈ s.live)
    (hsize : size ≤ sageArenaSize) :
    ∃ p s', s.exec place (.realloc ptr size) = some (p, s') ∧ s'.Kept place ∧
      s'.Returned place p (.realloc ptr size) := by
  obtain ⟨ts, hl, ha, hperm⟩ := hs
  have hptr' : ptr = 0 ∨ ptr ∈ pointers ts := hptr.imp id fun h => hperm.symm.subset h
  obtain ⟨p, h', us, hrun, hl', ha', hperm', hholds⟩ := sageRealloc_spec hl ha hptr' hsize
  refine ⟨p, ⟨h', liveAfter s.live ptr size p⟩, ?_, ?_, ?_⟩
  · rw [exec, hrun]
    rfl
  · exact ⟨us, hl', ha', hperm'.trans (liveAfter_perm hperm ptr size p)⟩
  · by_cases hp : p = 0
    · exact .inl hp
    · refine .inr ⟨?_, served_of_holds hl' (hholds hp)⟩
      unfold liveAfter
      rw [if_neg hp]
      exact mem_cons_self

theorem exec_write (hs : s.Kept place) {addr value p : ℕ} (hp : p ∈ s.live) (hlo : p ≤ addr)
    (hhi : addr + 8 ≤ p + s.heap.mem (p - 16)) :
    Kept place ⟨s.heap.store addr value, s.live⟩ := by
  obtain ⟨ts, hl, ha, hperm⟩ := hs
  obtain ⟨t, ht, hused, rfl⟩ := mem_pointers.mp (hperm.symm.subset hp)
  rw [Nat.add_sub_cancel, hl.headers t ht hused] at hhi
  refine ⟨ts, hl.write_inside ht hused fun a hout => ?_, ha, hperm⟩
  apply Function.update_of_ne
  unfold last at hout
  omega

variable {c : HeapCall}

theorem exec_proper (hs : s.Kept place) (hc : s.Proper c) :
    ∃ p s', s.exec place c = some (p, s') ∧ s'.Kept place ∧ s'.Returned place p c := by
  cases c with
  | malloc size tag => exact exec_malloc hs hc tag
  | free ptr =>
    obtain ⟨p, s', hrun, hs'⟩ := exec_free hs hc
    exact ⟨p, s', hrun, hs', trivial⟩
  | realloc ptr size => exact exec_realloc hs hc.1 hc.2
  | write addr value =>
    obtain ⟨-, p, hp, hlo, hhi⟩ := hc
    exact ⟨0, _, rfl, exec_write hs hp hlo hhi, trivial⟩

theorem step_of_exec {p : ℕ} {s' : HeapState}
    (hrun : s.exec place c = some (p, s')) : s.step place c = s' := by
  unfold step
  rw [hrun]
  rfl

theorem kept_step (hs : s.Kept place) (hc : s.Proper c) : (s.step place c).Kept place := by
  obtain ⟨p, s', hrun, hs', -⟩ := exec_proper hs hc
  rw [step_of_exec hrun]
  exact hs'

theorem kept_run {cs : List HeapCall} (hcs : Guarded (step place) Proper (start mem) cs) :
    (run (step place) (start mem) cs).Kept place := by
  have hstep : ∀ s c, (fun s => Kept place s) s → s.Proper c →
      (fun s => Kept place s) (s.step place c) := fun _ _ hs hc => kept_step hs hc
  exact invariant_run hstep (kept_start place mem) hcs

theorem arena_stays_tiled (place : HeapPlace) (mem : ℕ → ℕ) (cs : List HeapCall) (c : HeapCall)
    (hcs : Guarded (step place) Proper (start mem) (cs ++ [c])) :
    (run (step place) (start mem) cs).Sound place ∧
      ∃ p s', (run (step place) (start mem) cs).exec place c = some (p, s') ∧
        run (step place) (start mem) (cs ++ [c]) = s' ∧ s'.Sound place ∧ s'.Returned place p c := by
  obtain ⟨hpre, hc, -⟩ := guarded_append.mp hcs
  have hs := kept_run hpre
  obtain ⟨p, s', hrun, hs', hreturned⟩ := exec_proper hs hc
  refine ⟨hs.sound, p, s', hrun, ?_, hs'.sound, hreturned⟩
  rw [run_append, run_cons, run_nil, step_of_exec hrun]

def placeAtPage : HeapPlace := ⟨4096, by decide, by decide, by decide⟩

theorem second_block_follows_the_first :
    ∃ p s', (run (step placeAtPage) (start fun _ => 0) [.malloc 24 .vm, .malloc 8 .ipc, .free 4112]
        ).exec placeAtPage (.realloc 4160 100) = some (p, s') ∧ s'.Sound placeAtPage :=
  have hreturned := arena_stays_tiled placeAtPage (fun _ => 0)
    [.malloc 24 .vm, .malloc 8 .ipc, .free 4112] (.realloc 4160 100)
    ⟨by decide +kernel, by decide +kernel, by decide +kernel, by decide +kernel, trivial⟩
  let ⟨p, s', hrun, _, hsound, _⟩ := hreturned.2
  ⟨p, s', hrun, hsound⟩

/-- Freeing everything leaves one free block. -/
theorem one_block_when_all_freed {cs : List HeapCall} {h : Heap}
    (hcs : Guarded (step place) Proper (start mem) cs)
    (hend : run (step place) (start mem) cs = ⟨h, []⟩) : h.bump = 0 ∧ h.freeList = 0 ∨
      h.freeList = place.base ∧ h.mem place.base = h.bump ∧ h.mem (place.base + 8) = 0 := by
  obtain ⟨ts, hl, ha, hperm⟩ := hend ▸ kept_run hcs
  rw [perm_nil, pointers, map_eq_nil_iff, used, filter_eq_nil_iff] at hperm
  have hchain := hl.chain
  rw [filter_eq_self.mpr fun t ht => by simpa using hperm t ht] at hchain
  match ts with
  | [] => exact .inl ⟨Nat.left_eq_add.mp hl.tiles, hchain⟩
  | [t] =>
    obtain ⟨hlink, hsize, hnext⟩ := hchain
    obtain ⟨hbase, hlast⟩ := hl.tiles
    rw [hbase] at hlink hsize hnext
    change t.addr + t.size = place.base + h.bump at hlast
    exact .inr ⟨hlink, hsize.trans (by omega), hnext⟩
  | t :: u :: _ => simp_all [Apart]

theorem freed_block_is_whole : (run (step placeAtPage) (start fun _ => 0)
    [.malloc 24 .vm, .free 4112]).heap.freeList = 4096 := by
  have hcs : Guarded (step placeAtPage) Proper (start fun _ => 0) [.malloc 24 .vm, .free 4112] :=
    ⟨by decide +kernel, by decide +kernel, trivial⟩
  exact ((one_block_when_all_freed hcs rfl).resolve_left (by decide +kernel)).1

end HeapState
end SageOS
