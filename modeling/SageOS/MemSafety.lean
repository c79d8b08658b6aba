import SageOS.MemNatives

/-!
# Which pointers are safe to use

A pointer object with a recorded size stays inside the block it was derived from, whatever chain of
`ptr_add` made it, because the recorded size only shrinks from the front. Every access through it
is then refused or inside. A pointer without a recorded size is not checked at all, and no pointer
but the owner learns that its block is gone: through these some access goes wrong.
-/
namespace SageOS
open Binary64 Memory
namespace PointerValue

/-- A recorded size keeps the pointer inside the block. -/
structure Within (p : PointerValue) (a : Allocation) : Prop where
  ptr_lt : p.ptr < 2 ^ 64
  bounds : 0 < p.size → a.base ≤ p.ptr ∧ p.ptr + p.size ≤ a.base + a.size

variable {p : PointerValue} {a : Allocation}

theorem Within.ptrAdd (h : p.Within a) (hplace : a.base + a.size ≤ 2 ^ 63) (x : UInt64) :
    (p.ptrAdd x).Within a := by
  constructor
  · unfold PointerValue.ptrAdd
    dsimp only
    omega
  · intro hsize
    unfold PointerValue.ptrAdd at hsize ⊢
    dsimp only at hsize ⊢
    split_ifs at hsize ⊢ with hlt
    · have hb := h.bounds (by omega)
      omega
    · simp at hsize

theorem memRead_inside (h : p.Within a) (hplace : a.base + a.size ≤ 2 ^ 63) (hsize : 0 < p.size)
    {mem : Memory} {x : UInt64} {type : MemType} {t : Touch}
    (ht : (p.memRead mem x type).1 = some t) :
    a.base ≤ t.start ∧ t.start + t.length ≤ a.base + a.size := by
  obtain ⟨hbase, hend⟩ := h.bounds hsize
  unfold memRead at ht
  dsimp only at ht
  split_ifs at ht with hnull hneg hbig
  have hoff := toSize_le x hneg
  have hfits : toSize x + type.readSize ≤ p.size := by
    have hneeded : type.readSize ≤ 8 := by cases type <;> decide
    omega
  cases type with
  | byte | int | double =>
    obtain rfl := Option.some.inj ht
    dsimp only
    omega
  | string =>
    unfold readString at ht
    dsimp only at ht
    split_ifs at ht with hterm
    all_goals
      obtain rfl := Option.some.inj ht
      dsimp only
      omega
  | other => simp at ht

theorem memWrite_inside (h : p.Within a) (hplace : a.base + a.size ≤ 2 ^ 63) (hsize : 0 < p.size)
    {mem : Memory} {x : UInt64} {type : MemType} {value : Option UInt64} {t : Touch}
    (ht : (p.memWrite mem x type value).1 = some t) :
    a.base ≤ t.start ∧ t.start + t.length ≤ a.base + a.size := by
  obtain ⟨hbase, hend⟩ := h.bounds hsize
  unfold memWrite at ht
  dsimp only at ht
  split_ifs at ht with hnull hneg hbig
  have hoff := toSize_le x hneg
  have hfits : 0 < type.writeSize → toSize x + type.writeSize ≤ p.size := by
    intro hpos
    have hneeded : type.writeSize ≤ 8 := by cases type <;> decide
    omega
  cases type <;> cases value <;> simp only [reduceCtorEq, Option.some.injEq] at ht
  all_goals
    obtain rfl := ht
    simp only [MemType.writeSize] at hfits
    dsimp only
    omega

end PointerValue

/-- The block of a pointer is known and bounds it; the owner points at its start. -/
structure PointerValue.Fits (p : PointerValue) (allocs : ℕ → Option Allocation)
    (a : Allocation) : Prop extends p.Within a where
  known : allocs p.origin = some a
  owner : p.owned = true → a.live = true ∧ p.ptr = a.base

namespace MemState

/-- Blocks have a place, pointers fit their blocks, and a block has one owner. -/
structure Wf (s : MemState) : Prop where
  placed : ∀ j a, s.allocs j = some a → 0 < a.base ∧ a.base + a.size ≤ 2 ^ 63
  fresh : ∀ j, s.nextAlloc ≤ j → s.allocs j = none
  fits : ∀ i p, s.objs i = some p → ∃ a, p.Fits s.allocs a
  single : ∀ i j p q, s.objs i = some p → s.objs j = some q → p.owned = true → q.owned = true →
    p.origin = q.origin → i = j

variable {s : MemState} {p : PointerValue}

theorem wf_start : Wf {} where
  placed := by simp
  fresh := by simp
  fits := by simp
  single := by simp

theorem objs_addObj {p q : PointerValue} {i : ℕ} (h : (s.addObj p).objs i = some q) :
    (i = s.nextObj ∧ q = p) ∨ (i ≠ s.nextObj ∧ s.objs i = some q) := by
  unfold addObj at h
  rcases eq_or_ne i s.nextObj with rfl | hi
  · exact .inl ⟨rfl, by simpa using h.symm⟩
  · exact .inr ⟨hi, by simpa [hi] using h⟩

namespace Wf
variable (h : s.Wf)
include h

theorem addObj {a : Allocation} (hp : p.Fits s.allocs a)
    (hsingle : p.owned = true → ∀ i q, s.objs i = some q → q.owned = true → q.origin ≠ p.origin) :
    (s.addObj p).Wf where
  placed := h.placed
  fresh := h.fresh
  fits i q hq := by
    rcases objs_addObj hq with ⟨-, rfl⟩ | ⟨-, hold⟩
    · exact ⟨a, hp⟩
    · exact h.fits i q hold
  single i j q r hq hr howned howned' horigin := by
    rcases objs_addObj hq with ⟨rfl, rfl⟩ | hi
    · rcases objs_addObj hr with ⟨rfl, -⟩ | ⟨-, hr⟩
      · rfl
      · exact absurd horigin.symm (hsingle howned j r hr howned')
    · rcases objs_addObj hr with ⟨rfl, rfl⟩ | ⟨-, hr⟩
      · exact absurd horigin (hsingle howned' i q hi.2 howned)
      · exact h.single i j q r hi.2 hr howned howned' horigin

variable {i : ℕ}

theorem origin_lt (hp : s.objs i = some p) : p.origin < s.nextAlloc := by
  by_contra hge
  obtain ⟨a, ha⟩ := h.fits i p hp
  simpa [ha.known] using h.fresh p.origin (not_lt.mp hge)

theorem addBlock {base size : ℕ} (hbase : 0 < base) (hend : base + size ≤ 2 ^ 63) :
    (s.addBlock base size).Wf := by
  have hold {i : ℕ} {p : PointerValue} (hp : s.objs i = some p) : p.origin ≠ s.nextAlloc :=
    (h.origin_lt hp).ne
  have hblock : Wf { s with
        allocs := Function.update s.allocs s.nextAlloc (some ⟨base, size, true⟩)
        nextAlloc := s.nextAlloc + 1
        mem := store s.mem base (List.replicate size 0) } := by
    constructor
    · intro j a ha
      rcases eq_or_ne j s.nextAlloc with rfl | hj
      · obtain rfl : (⟨base, size, true⟩ : Allocation) = a := by simpa using ha
        exact ⟨hbase, hend⟩
      · exact h.placed j a (by simpa [hj] using ha)
    · intro j hj
      have hne : j ≠ s.nextAlloc := by
        dsimp only at hj
        omega
      simpa [hne] using h.fresh j (by dsimp only at hj; omega)
    · intro i p hp
      obtain ⟨a, hwithin, hknown, howner⟩ := h.fits i p hp
      exact ⟨a, hwithin, by simpa [hold hp] using hknown, howner⟩
    · exact h.single
  apply hblock.addObj (a := ⟨base, size, true⟩)
  · refine ⟨⟨?_, ?_⟩, by simp, by simp⟩
    · dsimp only
      omega
    · simp
  · intro _ i q hq _
    exact hold hq

theorem freed (hp : s.objs i = some p) (howned : p.owned = true)
    {q : Option PointerValue} (hq : ∀ r, q = some r → r = ⟨0, 0, false, p.origin⟩) :
    Wf { s with
      allocs := Function.update s.allocs p.origin
        ((s.allocs p.origin).map fun a => { a with live := false })
      objs := Function.update s.objs i q } := by
  obtain ⟨b, hb⟩ := h.fits i p hp
  have hother {j : ℕ} {r : PointerValue} (hj : j ≠ i) (hr : s.objs j = some r)
      (hr' : r.owned = true) : r.origin ≠ p.origin :=
    fun horigin => hj (h.single j i r p hr hp hr' howned horigin)
  constructor
  · intro j a ha
    rcases eq_or_ne j p.origin with rfl | hj
    · obtain rfl : { b with live := false } = a := by simpa [hb.known] using ha
      exact h.placed p.origin b hb.known
    · exact h.placed j a (by simpa [hj] using ha)
  · intro j hj
    have hne : j ≠ p.origin := (lt_of_lt_of_le (h.origin_lt hp) hj).ne'
    simpa [hne] using h.fresh j hj
  · intro j r hr
    rcases eq_or_ne j i with rfl | hj
    · obtain rfl := hq r (by simpa using hr)
      exact ⟨{ b with live := false }, ⟨by simp, by simp⟩, by simp [hb.known], by simp⟩
    · have hr : s.objs j = some r := by simpa [hj] using hr
      obtain ⟨a, hwithin, hknown, howner⟩ := h.fits j r hr
      by_cases horigin : r.origin = p.origin
      · obtain rfl : b = a := by
          rw [horigin, hb.known] at hknown
          exact Option.some.inj hknown
        refine ⟨{ b with live := false }, ⟨hwithin.ptr_lt, hwithin.bounds⟩, ?_, ?_⟩
        · simp [horigin, hb.known]
        · intro hr'
          exact absurd horigin (hother hj hr hr')
      · exact ⟨a, hwithin, by simpa [horigin] using hknown, howner⟩
  · intro j k r t hr ht hr' ht' horigin
    have hne {l : ℕ} {u : PointerValue} (hu : Function.update s.objs i q l = some u)
        (hu' : u.owned = true) : l ≠ i ∧ s.objs l = some u := by
      rcases eq_or_ne l i with rfl | hl
      · rw [hq u (by simpa using hu)] at hu'
        simp at hu'
      · exact ⟨hl, by simpa [hl] using hu⟩
    exact h.single j k r t (hne hr hr').2 (hne ht ht').2 hr' ht' horigin

theorem dropped (i : ℕ) : Wf { s with objs := Function.update s.objs i none } where
  placed := h.placed
  fresh := h.fresh
  fits j p hp := by
    rcases eq_or_ne j i with rfl | hj
    · simp at hp
    · exact h.fits j p (by simpa [hj] using hp)
  single j k p q hp hq := by
    rcases eq_or_ne j i with rfl | hj
    · simp at hp
    · rcases eq_or_ne k i with rfl | hk
      · simp at hq
      · exact h.single j k p q (by simpa [hj] using hp) (by simpa [hk] using hq)

theorem memFree (i : ℕ) : (s.memFree i).Wf := by
  unfold MemState.memFree
  cases hp : s.objs i with
  | none => exact h
  | some p =>
    dsimp only
    split_ifs with hdrop
    · unfold freeBlock
      dsimp only
      rw [if_pos hdrop]
      exact h.freed hp hdrop.2 fun r hr => (Option.some.inj hr).symm
    · exact h

theorem gcRelease (i : ℕ) : (s.gcRelease i).Wf := by
  unfold MemState.gcRelease
  cases hp : s.objs i with
  | none => exact h
  | some p =>
    unfold freeBlock
    dsimp only
    split_ifs with hdrop
    · exact h.freed hp hdrop.2 (by simp)
    · exact h.dropped i

theorem ptrAdd (i : ℕ) (x : UInt64) : (s.ptrAdd i x).Wf := by
  unfold MemState.ptrAdd
  cases hp : s.objs i with
  | none => exact h
  | some p =>
    obtain ⟨a, ha⟩ := h.fits i p hp
    apply h.addObj (a := a)
    · refine ⟨ha.toWithin.ptrAdd (h.placed _ a ha.known).2 x, ha.known, ?_⟩
      simp [PointerValue.ptrAdd]
    · simp [PointerValue.ptrAdd]

theorem memAlloc {x : UInt64} {base : ℕ} (hfresh : MemEvent.FreshBlock s base (toSize x)) :
    (s.memAlloc x (some base)).Wf := by
  unfold MemState.memAlloc
  split_ifs
  · exact h
  · exact h.addBlock hfresh.1 hfresh.2.1

theorem setMem (mem : Memory) : Wf { s with mem := mem } := ⟨h.placed, h.fresh, h.fits, h.single⟩

theorem step {e : MemEvent} (he : e.Contract s) : (e.step s).Wf := by
  cases e with
  | alloc x answer =>
    cases answer with
    | none =>
      have hsame : MemEvent.step s (.alloc x none) = s := by
        simp [MemEvent.step, MemState.memAlloc]
      rwa [hsame]
    | some base => exact h.memAlloc he
  | structNew x answer =>
    cases answer with
    | none => exact h
    | some base => exact h.addBlock he.1 he.2.1
  | ptrAdd i x => exact h.ptrAdd i x
  | free i => exact h.memFree i
  | release i => exact h.gcRelease i
  | access i a =>
    rw [MemEvent.step]
    cases s.objs i with
    | none => exact h
    | some p => exact h.setMem _

theorem safe (hp : s.objs i = some p) (hsize : 0 < p.size)
    (hlive : s.Live p.origin) (a : MemAccess) : s.Safe p a := by
  obtain ⟨b, hb⟩ := h.fits i p hp
  obtain ⟨c, hc, hlive⟩ := hlive
  obtain rfl : b = c := Option.some.inj (hb.known.symm.trans hc)
  have hplace := (h.placed _ b hc).2
  intro t ht
  refine ⟨b, hc, hlive, ?_⟩
  cases a with
  | read x type => exact p.memRead_inside hb.toWithin hplace hsize ht
  | write x type value => exact p.memWrite_inside hb.toWithin hplace hsize ht

end Wf

theorem safe_of_null (hp : p.ptr = 0) (a : MemAccess) : s.Safe p a := by
  intro t ht
  cases a with
  | read x type => simp [MemAccess.touch, PointerValue.memRead, hp] at ht
  | write x type value => simp [MemAccess.touch, PointerValue.memWrite, hp] at ht

/-- Two to the power of 63 as a double. -/
def hugeOffset : UInt64 := 0x43E0000000000000

theorem toSize_hugeOffset : toSize hugeOffset = 2 ^ 63 ∧ ¬ isNegative hugeOffset := by
  decide

theorem toSize_zero : toSize 0 = 0 ∧ ¬ isNegative 0 := by decide +kernel

theorem touch_first (hp : p.ptr ≠ 0) (hlt : p.ptr < 2 ^ 64) :
    (MemAccess.read 0 .byte).touch s.mem p = some ⟨p.ptr, 1⟩ := by
  simp only [MemAccess.touch, PointerValue.memRead, hp, toSize_zero, MemType.readSize, if_false]
  rw [if_neg (by omega)]
  simpa using hlt

theorem touch_unchecked (hp : p.ptr ≠ 0) (hsize : p.size = 0) :
    (MemAccess.read hugeOffset .byte).touch s.mem p = some ⟨(p.ptr + 2 ^ 63) % 2 ^ 64, 1⟩ := by
  simp [MemAccess.touch, PointerValue.memRead, hp, hsize, toSize_hugeOffset, MemType.readSize]

theorem Wf.not_safe (h : s.Wf) {i : ℕ} (hp : s.objs i = some p)
    (hnull : p.ptr ≠ 0) (hbad : p.size = 0 ∨ ¬ s.Live p.origin) : ∃ a, ¬ s.Safe p a := by
  obtain ⟨b, hb⟩ := h.fits i p hp
  have hfirst := touch_first (s := s) hnull hb.ptr_lt
  by_contra hall
  push Not at hall
  obtain ⟨c, hc, hlive, hlo, hhi⟩ := hall (.read 0 .byte) _ hfirst
  rcases hbad with hsize | hdead
  · obtain ⟨d, hd, -, hlo', hhi'⟩ := hall (.read hugeOffset .byte) _ (touch_unchecked hnull hsize)
    obtain rfl : c = d := Option.some.inj (hc.symm.trans hd)
    have hplace := (h.placed _ c hc).2
    dsimp only at hlo hhi hlo' hhi'
    omega
  · exact hdead ⟨c, hc, hlive⟩

end MemState

namespace MemEvent
open GuardedRun

theorem wf_run {es : List MemEvent} (hes : Guarded step Contract {} es) : (run step {} es).Wf :=
  invariant_run (fun _ _ h he => h.step he) MemState.wf_start hes

theorem mem_access_safe_iff {es : List MemEvent} (hes : Guarded step Contract {} es) {i : ℕ}
    {p : PointerValue} (hp : (run step {} es).objs i = some p) :
    (∀ a, (run step {} es).Safe p a) ↔ p.ptr = 0 ∨ 0 < p.size ∧ (run step {} es).Live p.origin := by
  have hwf := wf_run hes
  constructor
  · intro hall
    by_contra hbad
    obtain ⟨hnull, hrest⟩ := not_or.mp hbad
    have hcases : p.size = 0 ∨ ¬ (run step {} es).Live p.origin := by
      by_cases hsize : p.size = 0
      · exact .inl hsize
      · exact .inr fun hlive => hrest ⟨Nat.pos_of_ne_zero hsize, hlive⟩
    obtain ⟨a, ha⟩ := hwf.not_safe hp hnull hcases
    exact ha (hall a)
  · rintro (hnull | ⟨hsize, hlive⟩) a
    · exact MemState.safe_of_null hnull a
    · exact hwf.safe hp hsize hlive a

def eight : UInt64 := 0x4020000000000000
def four : UInt64 := 0x4010000000000000
def minusFour : UInt64 := 0xC010000000000000

/-- Eight bytes at address 4096, with an alias in their middle. -/
def halfway : List MemEvent := [.alloc eight (some 4096), .ptrAdd 0 four]

theorem halfway_safe : Guarded step Contract {} halfway ∧
    ∀ a, (run step {} halfway).Safe ⟨4100, 4, false, 0⟩ a := by
  have hes : Guarded step Contract {} halfway := by
    refine ⟨⟨by decide, by decide, by simp⟩, trivial, trivial⟩
  have hobj : (run step {} halfway).objs 1 = some ⟨4100, 4, false, 0⟩ := by decide
  refine ⟨hes, (mem_access_safe_iff hes hobj).mpr (.inr ⟨by decide, ⟨4096, 8, true⟩, ?_, rfl⟩)⟩
  decide

/-- An alias before the block is not checked at all. -/
def before : List MemEvent := [.alloc eight (some 4096), .ptrAdd 0 minusFour]

theorem alias_before_block_unchecked : Guarded step Contract {} before ∧
    (run step {} before).objs 1 = some ⟨4092, 0, false, 0⟩ ∧
    ((MemAccess.write 0 .byte (some 0)).touch (run step {} before).mem ⟨4092, 0, false, 0⟩ =
      some ⟨4092, 1⟩) ∧
    ¬ (run step {} before).Safe ⟨4092, 0, false, 0⟩ (.write 0 .byte (some 0)) := by
  have hobj : (run step {} before).objs 1 = some ⟨4092, 0, false, 0⟩ := by decide
  have htouch : (MemAccess.write 0 .byte (some 0)).touch (run step {} before).mem
      ⟨4092, 0, false, 0⟩ = some ⟨4092, 1⟩ := by decide +kernel
  have halloc : (run step {} before).allocs 0 = some ⟨4096, 8, true⟩ := by decide
  refine ⟨⟨⟨by decide, by decide, by simp⟩, trivial, trivial⟩, hobj, htouch, ?_⟩
  intro hsafe
  obtain ⟨a, ha, -, hlo, -⟩ := hsafe _ htouch
  obtain rfl : (⟨4096, 8, true⟩ : Allocation) = a := Option.some.inj (halloc.symm.trans ha)
  exact absurd hlo (by decide)

end MemEvent
end SageOS
