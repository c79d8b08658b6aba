import SageOS.MetalCollector
import SageOS.StringPool

/-!
# Allocation in the pools

A slot is free when its object is not live. With a free slot, an allocation takes one and leaves
every other object alone. Without, it collects first, and then the objects that cannot be reached
from the roots lose their slots.
-/
namespace SageOS
open List
namespace MetalHeap
variable (h : MetalHeap)

instance : DecidablePred h.Live := fun r =>
  decidable_of_iff (r.index < h.size r.kind ∧ h.marked r = true)
    ⟨fun hr => ⟨hr.1, hr.2⟩, fun hr => ⟨hr.index_lt, hr.marked⟩⟩

def freeSlots (kind : PoolKind) : ℕ :=
  ((Finset.range metalPoolMax).filter fun i => ¬ h.Live ⟨kind, i⟩).card

def metalNew (roots : List MetalValue) : PoolKind → Option ℕ × MetalHeap
  | .arr => h.metalArrayNew roots
  | .dict => h.metalDictNew roots

def firstUnmarked (kind : PoolKind) : Option ℕ :=
  (range (h.size kind)).find? fun i => !h.marked ⟨kind, i⟩

def occupy : MetalRef → MetalHeap
  | ⟨.arr, i⟩ => h.setArray i { inUse := true }
  | ⟨.dict, i⟩ => h.setDict i { inUse := true }

def grow : PoolKind → MetalHeap
  | .arr => { h with arrayCount := h.arrayCount + 1 }
  | .dict => { h with dictCount := h.dictCount + 1 }

theorem metalNew_eq (roots : List MetalValue) (kind : PoolKind) :
    h.metalNew roots kind =
      match (h.firstUnmarked kind).map fun i => (i, h.occupy ⟨kind, i⟩) with
      | some (i, h₁) => (some i, h₁)
      | none =>
        if metalPoolMax ≤ h.size kind then
          match ((h.gc roots).firstUnmarked kind).map fun i =>
            (i, (h.gc roots).occupy ⟨kind, i⟩) with
          | some (i, h₁) => (some i, h₁)
          | none => (none, h.gc roots)
        else (some (h.size kind), (h.grow kind).occupy ⟨kind, h.size kind⟩) := by
  cases kind <;> rfl

/-- `h'` is `h` with an empty object in the free slot `r`. -/
structure Placed (h : MetalHeap) (r : MetalRef) (h' : MetalHeap) : Prop where
  free : ¬ h.Live r
  index_lt : r.index < metalPoolMax
  size_le : ∀ kind, h.size kind ≤ metalPoolMax → h'.size kind ≤ metalPoolMax
  live_iff : ∀ s, h'.Live s ↔ h.Live s ∨ s = r
  empty : h'.contents r = []
  contents : ∀ s, s ≠ r → h'.contents s = h.contents s

theorem occupy_contents_self (r : MetalRef) : (h.occupy r).contents r = [] := by
  obtain ⟨kind, i⟩ := r
  cases kind <;> simp [occupy, MetalHeap.contents, setArray, setDict]

theorem occupy_contents_of_ne {r s : MetalRef} (hs : s ≠ r) :
    (h.occupy r).contents s = h.contents s := by
  obtain ⟨kind, i⟩ := r
  obtain ⟨kind', j⟩ := s
  cases kind <;> cases kind' <;> simp only [occupy, MetalHeap.contents, setArray, setDict]
  all_goals
    have hij : j ≠ i := fun hij => hs (hij ▸ rfl)
    rw [Function.update_of_ne hij]

theorem occupy_marked (r s : MetalRef) : (h.occupy r).marked s = (h.marked s || s = r) := by
  obtain ⟨kind, i⟩ := r
  obtain ⟨kind', j⟩ := s
  cases kind <;> cases kind' <;> simp only [occupy, marked, setArray, setDict] <;> try simp
  all_goals
    by_cases hij : j = i
    · subst hij
      simp
    · simp [hij]

theorem occupy_size (r : MetalRef) : (h.occupy r).size = h.size := by
  obtain ⟨kind, i⟩ := r
  funext kind'
  cases kind <;> cases kind' <;> rfl

theorem placed_occupy {r : MetalRef} (hlt : r.index < h.size r.kind) (hmax : r.index < metalPoolMax)
    (hmark : h.marked r = false) : Placed h r (h.occupy r) where
  free hr := by simpa [hmark] using hr.marked
  index_lt := hmax
  size_le kind hkind := by rwa [h.occupy_size r]
  live_iff s := by
    constructor
    · rintro ⟨hs, hm⟩
      rw [h.occupy_size r] at hs
      rw [h.occupy_marked r s, Bool.or_eq_true, decide_eq_true_eq] at hm
      exact hm.imp_left fun hm => ⟨hs, hm⟩
    · rintro (hs | rfl)
      · exact ⟨by rw [h.occupy_size r]; exact hs.index_lt, by simp [h.occupy_marked, hs.marked]⟩
      · exact ⟨by rw [h.occupy_size s]; exact hlt, by simp [h.occupy_marked]⟩
  empty := h.occupy_contents_self r
  contents _ hs := h.occupy_contents_of_ne hs

theorem grow_size_self (kind : PoolKind) : (h.grow kind).size kind = h.size kind + 1 := by
  cases kind <;> rfl

theorem grow_size_of_ne {kind kind' : PoolKind} (hne : kind' ≠ kind) :
    (h.grow kind).size kind' = h.size kind' := by
  cases kind <;> cases kind' <;> first | rfl | exact absurd rfl hne

theorem grow_contents (kind : PoolKind) : (h.grow kind).contents = h.contents := by
  funext r
  obtain ⟨kind', i⟩ := r
  cases kind <;> cases kind' <;> rfl

theorem grow_marked (kind : PoolKind) : (h.grow kind).marked = h.marked := by
  funext r
  obtain ⟨kind', i⟩ := r
  cases kind <;> cases kind' <;> rfl

variable {kind : PoolKind}

theorem placed_grow (hroom : h.size kind < metalPoolMax) :
    Placed h ⟨kind, h.size kind⟩ ((h.grow kind).occupy ⟨kind, h.size kind⟩) where
  free hr := absurd hr.index_lt (lt_irrefl _)
  index_lt := hroom
  size_le kind' hkind := by
    rw [occupy_size]
    by_cases hne : kind' = kind
    · subst hne
      rw [h.grow_size_self]
      omega
    · rwa [h.grow_size_of_ne hne]
  live_iff s := by
    constructor
    · rintro ⟨hs, hm⟩
      rw [occupy_size] at hs
      rw [occupy_marked, h.grow_marked, Bool.or_eq_true, decide_eq_true_eq] at hm
      rcases hm with hm | rfl
      · by_cases hsk : s.kind = kind
        · by_cases hidx : s.index = h.size kind
          · exact .inr (MetalRef.ext hsk hidx)
          · rw [hsk, h.grow_size_self] at hs
            exact .inl ⟨by rw [hsk]; omega, hm⟩
        · exact .inl ⟨h.grow_size_of_ne hsk ▸ hs, hm⟩
      · exact .inr rfl
    · rintro (hs | rfl)
      · refine ⟨?_, by simp [occupy_marked, h.grow_marked, hs.marked]⟩
        have hlt := hs.index_lt
        rw [occupy_size]
        by_cases hsk : s.kind = kind
        · rw [hsk] at hlt ⊢
          rw [h.grow_size_self]
          omega
        · rwa [h.grow_size_of_ne hsk]
      · refine ⟨?_, by simp [occupy_marked]⟩
        rw [occupy_size, h.grow_size_self]
        exact Nat.lt_succ_self _
  empty := occupy_contents_self _ _
  contents s hs := by rw [occupy_contents_of_ne _ hs, h.grow_contents]

theorem card_filter_add_one {s : Finset ℕ} {p q : ℕ → Prop} [DecidablePred p] [DecidablePred q]
    {i : ℕ} (hi : i ∈ s) (hpi : p i) (hq : ∀ j, q j ↔ p j ∧ j ≠ i) :
    (s.filter q).card + 1 = (s.filter p).card := by
  have herase : s.filter q = (s.filter p).erase i := by
    ext j
    simp only [Finset.mem_filter, Finset.mem_erase, hq]
    tauto
  rw [herase, Finset.card_erase_add_one (Finset.mem_filter.mpr ⟨hi, hpi⟩)]

namespace Placed
variable {h} {h' : MetalHeap} {r : MetalRef}

theorem liveValue (hp : Placed h r h') {v : MetalValue} (hv : h.LiveValue v) : h'.LiveValue v :=
  fun s hs => (hp.live_iff s).mpr (.inl (hv s hs))

theorem tidy (hp : Placed h r h') (ht : h.Tidy) : h'.Tidy where
  size_le kind := hp.size_le kind (ht.size_le kind)
  next_live s hs t hst := by
    by_cases hsr : s = r
    · subst hsr
      unfold next at hst
      rw [hp.empty] at hst
      exact absurd hst not_mem_nil
    · have hlive : h.Live s := ((hp.live_iff s).mp hs).resolve_right hsr
      unfold next at hst
      rw [hp.contents s hsr] at hst
      exact (hp.live_iff t).mpr (.inl (ht.next_live s hlive t hst))

theorem freeSlots_self (hp : Placed h r h') : h'.freeSlots r.kind + 1 = h.freeSlots r.kind := by
  apply card_filter_add_one (Finset.mem_range.mpr hp.index_lt) hp.free
  intro j
  rw [hp.live_iff, not_or, MetalRef.ext_iff]
  simp

theorem freeSlots_of_ne (hp : Placed h r h') {kind : PoolKind} (hne : kind ≠ r.kind) :
    h'.freeSlots kind = h.freeSlots kind := by
  unfold freeSlots
  rw [Finset.filter_congr (q := fun i => ¬ h.Live ⟨kind, i⟩)]
  intro i _
  simp [hp.live_iff, MetalRef.ext_iff, hne]

end Placed

theorem freeSlots_eq_zero (hfull : h.firstUnmarked kind = none)
    (hsize : metalPoolMax ≤ h.size kind) : h.freeSlots kind = 0 := by
  apply Finset.card_eq_zero.mpr
  apply Finset.filter_eq_empty_iff.mpr
  intro i hi hlive
  have hlt : i < h.size kind := (Finset.mem_range.mp hi).trans_le hsize
  have hm := find?_eq_none.mp hfull i (mem_range.mpr hlt)
  exact hlive ⟨hlt, by simpa using hm⟩

/-- What an allocation returns: a free slot of the heap `h₁` it started from or collected. -/
inductive Allocated (h₁ : MetalHeap) (kind : PoolKind) : Option ℕ × MetalHeap → Prop
  | slot {i : ℕ} {h' : MetalHeap} (hp : Placed h₁ ⟨kind, i⟩ h') : Allocated h₁ kind (some i, h')
  | full : Allocated h₁ kind (none, h₁)

theorem placed_firstUnmarked {h : MetalHeap} (ht : h.Tidy) {i : ℕ}
    (hi : h.firstUnmarked kind = some i) : Placed h ⟨kind, i⟩ (h.occupy ⟨kind, i⟩) := by
  have hlt : i < h.size kind := mem_range.mp (mem_of_find?_eq_some hi)
  have hm := find?_some hi
  exact h.placed_occupy hlt (hlt.trans_le (ht.size_le kind)) (by simpa using hm)

theorem metalNew_allocated {h : MetalHeap} (ht : h.Tidy) {roots : List MetalValue}
    (hroots : ∀ v ∈ roots, h.LiveValue v) (kind : PoolKind) :
    Allocated h kind (h.metalNew roots kind) ∨
      h.freeSlots kind = 0 ∧ Allocated (h.gc roots) kind (h.metalNew roots kind) := by
  rw [metalNew_eq]
  cases hfree : h.firstUnmarked kind with
  | some i => exact .inl (.slot (placed_firstUnmarked ht hfree))
  | none =>
    by_cases hsize : metalPoolMax ≤ h.size kind
    · rw [if_pos hsize]
      refine .inr ⟨h.freeSlots_eq_zero hfree hsize, ?_⟩
      have ht' := (gc_collected ht hroots).tidy
      cases hg : (h.gc roots).firstUnmarked kind with
      | some i => exact .slot (placed_firstUnmarked ht' hg)
      | none => exact .full
    · rw [if_neg hsize]
      exact .inl (.slot (h.placed_grow (not_le.mp hsize)))

end MetalHeap
end SageOS
