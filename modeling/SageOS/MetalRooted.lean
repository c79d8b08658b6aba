import SageOS.Ending
import SageOS.MetalInvariant
import SageOS.MetalTrace

/-!
# Values held by the machine

In a sound state the heap is tidy, every value on the stack and in a live scope is live, and so are
the values `held` by the instruction at work. Constants are numbers and strings. Popping adds to
what is held, and only what is held, or has no object, may be pushed or stored.
-/
namespace SageOS
open List Function MetalValue
namespace MetalVM
open Checked MetalHeap

/-- No constant of the pool is an object. -/
def ConstPool.Plain (c : ConstPool) : Prop := ∀ v ∈ c.decoded, v.ref = none

structure Sound (held : List MetalValue) (vm : MetalVM) : Prop where
  tidy : vm.heap.Tidy
  stack : ∀ i < vm.sp, vm.heap.LiveValue (vm.stack i)
  depth : vm.scopeDepth < metalEnvDepth
  scopes : ∀ d ≤ vm.scopeDepth, ∀ x ∈ vm.scopes d, vm.heap.LiveValue x.value
  held : ∀ v ∈ held, vm.heap.LiveValue v
  constants : ConstPool.Plain vm.constants
  functions : ∀ i, ConstPool.Plain (vm.functions i).constants
  frames : ∀ i, ConstPool.Plain (vm.callStack i).constants

variable {held held' : List MetalValue} {vm : MetalVM} {v : MetalValue} {α : Type}

def Storable (held : List MetalValue) (v : MetalValue) : Prop := v ∈ held ∨ v.ref = none

theorem liveValue_of_ref_none (h : MetalHeap) (hv : v.ref = none) : h.LiveValue v := by
  intro r hr
  rw [hv] at hr
  cases hr

@[simp] theorem ref_mvNil : mvNil.ref = none := rfl

@[simp] theorem ref_mvNum (bits : UInt64) : (mvNum bits).ref = none := rfl

@[simp] theorem ref_mvBool (b : Bool) : (mvBool b).ref = none := rfl

@[simp] theorem ref_ofInt_fn (n : ℤ) : (MetalValue.ofInt .fn n).ref = none := rfl

theorem ref_ofInt (kind : PoolKind) {i : ℕ} (hi : i < metalPoolMax) :
    (MetalValue.ofInt kind.type i).ref = some ⟨kind, i⟩ := by
  have hint : (ofInt kind.type i).int = i :=
    int_ofInt kind.type (hi.trans (by decide))
  have hidx : poolIndex (i : ℤ) = some i := by
    unfold poolIndex
    rw [if_neg (by omega), Int.toNat_natCast]
  unfold ref
  rw [hint, hidx]
  cases kind <;> rfl

/-- `h'` is `h` with `v` stored in some object, if anything changed. -/
structure Stores (h : MetalHeap) (v : MetalValue) (h' : MetalHeap) : Prop where
  marked : h'.marked = h.marked
  size : h'.size = h.size
  contents : ∀ r, ∀ x ∈ h'.contents r, x ∈ h.contents r ∨ x = v

namespace Stores
variable {h h' : MetalHeap}

theorem refl (h : MetalHeap) (v : MetalValue) : Stores h v h := ⟨rfl, rfl, fun _ _ hx => .inl hx⟩

theorem live_iff (hs : Stores h v h') (r : MetalRef) : h'.Live r ↔ h.Live r :=
  ⟨fun hr => ⟨hs.size ▸ hr.index_lt, hs.marked ▸ hr.marked⟩,
    fun hr => ⟨hs.size ▸ hr.index_lt, hs.marked ▸ hr.marked⟩⟩

theorem liveValue (hs : Stores h v h') {x : MetalValue} (hx : h.LiveValue x) : h'.LiveValue x :=
  fun r hr => (hs.live_iff r).mpr (hx r hr)

theorem tidy (hs : Stores h v h') (ht : h.Tidy) (hv : h.LiveValue v) : h'.Tidy where
  size_le := hs.size ▸ ht.size_le
  next_live r hr s hrs := by
    obtain ⟨x, hx, hxs⟩ := mem_filterMap.mp hrs
    rcases hs.contents r x hx with hx | rfl
    · have hnext : s ∈ h.next r := mem_filterMap.mpr ⟨x, hx, hxs⟩
      exact (hs.live_iff s).mpr (ht.next_live r ((hs.live_iff r).mp hr) s hnext)
    · exact hs.liveValue hv s hxs

theorem setArray {i : ℕ} {elems : List MetalValue}
    (hin : ∀ x ∈ elems, x ∈ (h.arrays i).elems ∨ x = v) :
    Stores h v (h.setArray i { h.arrays i with elems := elems }) where
  marked := by
    funext r
    obtain ⟨kind, j⟩ := r
    cases kind with
    | arr =>
      by_cases hij : j = i
      · subst hij
        simp [MetalHeap.marked, MetalHeap.setArray]
      · simp [MetalHeap.marked, MetalHeap.setArray, hij]
    | dict => rfl
  size := by
    funext kind
    cases kind <;> rfl
  contents r x hx := by
    obtain ⟨kind, j⟩ := r
    cases kind with
    | arr =>
      by_cases hij : j = i
      · subst hij
        simp only [MetalHeap.contents, MetalHeap.setArray, update_self] at hx
        exact hin x hx
      · simp only [MetalHeap.contents, MetalHeap.setArray, update_of_ne hij] at hx
        exact .inl hx
    | dict => exact .inl hx

theorem setDict {i : ℕ} {entries : List (ℤ × MetalValue)}
    (hin : ∀ e ∈ entries, e ∈ (h.dicts i).entries ∨ e.2 = v) :
    Stores h v (h.setDict i { h.dicts i with entries := entries }) where
  marked := by
    funext r
    obtain ⟨kind, j⟩ := r
    cases kind with
    | arr => rfl
    | dict =>
      by_cases hij : j = i
      · subst hij
        simp [MetalHeap.marked, MetalHeap.setDict]
      · simp [MetalHeap.marked, MetalHeap.setDict, hij]
  size := by
    funext kind
    cases kind <;> rfl
  contents r x hx := by
    obtain ⟨kind, j⟩ := r
    cases kind with
    | arr => exact .inl hx
    | dict =>
      by_cases hij : j = i
      · subst hij
        simp only [MetalHeap.contents, MetalHeap.setDict, update_self] at hx
        obtain ⟨e, he, rfl⟩ := mem_map.mp hx
        exact (hin e he).imp_left fun he => mem_map_of_mem he
      · simp only [MetalHeap.contents, MetalHeap.setDict, update_of_ne hij] at hx
        exact .inl hx

theorem metalArrayPush (h : MetalHeap) (idx : ℤ) (v : MetalValue) :
    Stores h v (h.metalArrayPush idx v) := by
  unfold MetalHeap.metalArrayPush
  cases poolIndex idx with
  | none => exact refl h v
  | some i =>
    dsimp only
    split_ifs
    · exact refl h v
    · apply setArray
      intro x hx
      simpa using hx

theorem metalArraySet (h : MetalHeap) (idx index : ℤ) (v : MetalValue) :
    Stores h v (h.metalArraySet idx index v) := by
  unfold MetalHeap.metalArraySet
  cases poolIndex idx with
  | none => exact refl h v
  | some i =>
    dsimp only
    split_ifs
    · exact refl h v
    · exact setArray fun x hx => mem_or_eq_of_mem_set hx

theorem metalDictSet (h : MetalHeap) (idx key : ℤ) (v : MetalValue) :
    Stores h v (h.metalDictSet idx key v) := by
  unfold MetalHeap.metalDictSet
  cases poolIndex idx with
  | none => exact refl h v
  | some i =>
    apply setDict
    intro e he
    unfold dictStore at he
    cases hfind : (h.dicts i).entries.findIdx? (·.1 = key) with
    | some j =>
      rw [hfind] at he
      exact (mem_or_eq_of_mem_set he).imp_right (congrArg Prod.snd)
    | none =>
      rw [hfind] at he
      dsimp only at he
      split_ifs at he
      · rcases mem_append.mp he with he | he
        · exact .inl he
        · exact .inr (mem_singleton.mp he ▸ rfl)
      · exact .inl he

end Stores

namespace Sound
section
variable (h : Sound held vm)

include h

theorem mono (hsub : held' ⊆ held) : Sound held' vm :=
  { h with held := fun v hv => h.held v (hsub hv) }

theorem live (hv : Storable held v) : vm.heap.LiveValue v :=
  hv.elim (h.held v) (liveValue_of_ref_none vm.heap)

theorem cons (hv : vm.heap.LiveValue v) : Sound (v :: held) vm :=
  { h with held := fun w hw => (mem_cons.mp hw).elim (fun he => he ▸ hv) (h.held w) }

theorem roots : ∀ v ∈ vm.roots, vm.heap.LiveValue v := by
  intro v hv
  rcases mem_append.mp hv with hv | hv
  · obtain ⟨i, hi, rfl⟩ := mem_map.mp hv
    exact h.stack i (mem_range.mp hi)
  · obtain ⟨d, hd, hv⟩ := mem_flatMap.mp hv
    have hle : d ≤ vm.scopeDepth := Nat.lt_succ_iff.mp (mem_range.mp hd)
    rw [if_pos (hle.trans_lt h.depth)] at hv
    obtain ⟨x, hx, rfl⟩ := mem_map.mp hv
    exact h.scopes d hle x hx

theorem withStatus (code : CodeRef) (ip : ℤ) (strings : Bytes) (halted : Bool)
    (error : Option String) :
    Sound held { vm with
      code := code, ip := ip, strings := strings, halted := halted, error := error } :=
  ⟨h.tidy, h.stack, h.depth, h.scopes, h.held, h.constants, h.functions, h.frames⟩

theorem withSp {sp : ℕ} (hsp : sp ≤ vm.sp) : Sound held { vm with sp := sp } :=
  ⟨h.tidy, fun i hi => h.stack i (lt_of_lt_of_le hi hsp), h.depth, h.scopes, h.held, h.constants,
    h.functions, h.frames⟩

theorem withHeap {heap : MetalHeap} (ht : heap.Tidy)
    (hlive : ∀ v, vm.heap.LiveValue v → heap.LiveValue v) : Sound held { vm with heap := heap } :=
  ⟨ht, fun i hi => hlive _ (h.stack i hi), h.depth, fun d hd x hx => hlive _ (h.scopes d hd x hx),
    fun v hv => hlive v (h.held v hv), h.constants, h.functions, h.frames⟩

theorem store {heap : MetalHeap} (hv : Storable held v)
    (hs : Stores vm.heap v heap) : Sound held { vm with heap := heap } :=
  h.withHeap (hs.tidy h.tidy (h.live hv)) fun _ => hs.liveValue

end
end Sound

theorem liveValue_metalArrayGet (h : Sound held vm) {obj : MetalValue} (hobj : obj ∈ held)
    (htype : obj.type = .arr) (index : ℤ) :
    vm.heap.LiveValue (vm.heap.metalArrayGet obj.int index) := by
  unfold MetalHeap.metalArrayGet
  cases hidx : poolIndex obj.int with
  | none => exact liveValue_of_ref_none _ ref_mvNil
  | some i =>
    have hlive : vm.heap.Live ⟨.arr, i⟩ := by
      apply h.held obj hobj
      simp [ref, htype, hidx]
    dsimp only
    split_ifs with hout
    · exact liveValue_of_ref_none _ ref_mvNil
    · intro r hr
      apply h.tidy.next_live _ hlive
      have hlt : index.toNat < (vm.heap.arrays i).elems.length := by omega
      rw [getD_eq_getElem?_getD, getElem?_eq_getElem hlt, Option.getD_some] at hr
      exact mem_filterMap.mpr ⟨_, getElem_mem hlt, hr⟩

theorem liveValue_metalDictGet (h : Sound held vm) {obj : MetalValue} (hobj : obj ∈ held)
    (htype : obj.type = .dict) (key : ℤ) :
    vm.heap.LiveValue (vm.heap.metalDictGet obj.int key) := by
  unfold MetalHeap.metalDictGet
  cases hidx : poolIndex obj.int with
  | none => exact liveValue_of_ref_none _ ref_mvNil
  | some i =>
    have hlive : vm.heap.Live ⟨.dict, i⟩ := by
      apply h.held obj hobj
      simp [ref, htype, hidx]
    dsimp only
    cases hfind : (vm.heap.dicts i).entries.find? (·.1 = key) with
    | none => exact liveValue_of_ref_none _ ref_mvNil
    | some e =>
      intro r hr
      apply h.tidy.next_live _ hlive
      exact mem_filterMap.mpr ⟨e.2, mem_map_of_mem (mem_of_find?_eq_some hfind), hr⟩

end MetalVM
end SageOS
