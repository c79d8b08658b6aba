import SageOS.Marking
import SageOS.MetalVm

/-!
# Collection in the pools

An object is a slot of one of the two pools. It is live when it lies below the count of its pool
and carries the mark. A collection leaves live exactly what can be reached from the roots, and an
allocation returns a slot that is not live, after a collection if the pool is full.
-/
namespace SageOS
open List Option Finset

inductive PoolKind
  | arr | dict
  deriving DecidableEq, Repr

@[ext]
structure MetalRef where
  kind : PoolKind
  index : ℕ
  deriving DecidableEq, Repr

namespace MetalValue

def ref (v : MetalValue) : Option MetalRef :=
  match v.type with
  | .arr => (MetalHeap.poolIndex v.int).map (⟨.arr, ·⟩)
  | .dict => (MetalHeap.poolIndex v.int).map (⟨.dict, ·⟩)
  | _ => none

end MetalValue

namespace MetalHeap
variable (h : MetalHeap)

def marked : MetalRef → Bool
  | ⟨.arr, i⟩ => (h.arrays i).inUse
  | ⟨.dict, i⟩ => (h.dicts i).inUse

def contents : MetalRef → List MetalValue
  | ⟨.arr, i⟩ => (h.arrays i).elems
  | ⟨.dict, i⟩ => (h.dicts i).entries.map (·.2)

def size : PoolKind → ℕ
  | .arr => h.arrayCount
  | .dict => h.dictCount

def next (r : MetalRef) : List MetalRef := (h.contents r).filterMap (·.ref)

structure Live (r : MetalRef) : Prop where
  index_lt : r.index < h.size r.kind
  marked : h.marked r

def LiveValue (v : MetalValue) : Prop := ∀ r ∈ v.ref, h.Live r

/-- Live objects refer to live objects only. -/
structure Tidy : Prop where
  size_le : ∀ kind, h.size kind ≤ metalPoolMax
  next_live : ∀ r, h.Live r → ∀ s ∈ h.next r, h.Live s

/-- An object can be reached from the values `vs`. -/
def Reached (vs : List MetalValue) (r : MetalRef) : Prop :=
  ∃ v ∈ vs, ∃ r₀ ∈ v.ref, Relation.ReflTransGen (fun a b => b ∈ h.next a) r₀ r

variable {r : MetalRef}

theorem Tidy.live_of_reached {h : MetalHeap} (ht : h.Tidy) {vs : List MetalValue}
    (hvs : ∀ v ∈ vs, h.LiveValue v) (hr : h.Reached vs r) : h.Live r := by
  obtain ⟨v, hv, r₀, hr₀, hpath⟩ := hr
  induction hpath with
  | refl => exact hvs v hv r₀ hr₀
  | tail _ hstep ih => exact ht.next_live _ ih _ hstep

def setMark : MetalRef → MetalHeap
  | ⟨.arr, i⟩ => h.setArray i { h.arrays i with inUse := true }
  | ⟨.dict, i⟩ => h.setDict i { h.dicts i with inUse := true }

variable {v : MetalValue}

theorem index_lt_of_ref (hr : v.ref = some r) :
    r.index < metalPoolMax := by
  have hpool : ∀ {i : ℤ} {n : ℕ}, poolIndex i = some n → n < metalPoolMax := by
    intro i n hn
    unfold poolIndex at hn
    split_ifs at hn with hi
    cases hn
    omega
  unfold MetalValue.ref at hr
  split at hr
  · obtain ⟨n, hn, rfl⟩ := map_eq_some_iff.mp hr
    exact hpool hn
  · obtain ⟨n, hn, rfl⟩ := map_eq_some_iff.mp hr
    exact hpool hn
  · cases hr

theorem gcMarkValue_of_none (hv : v.ref = none) (fuel : ℕ) :
    gcMarkValue fuel h v = h := by
  cases fuel with
  | zero => rfl
  | succ fuel =>
    unfold MetalValue.ref at hv
    unfold gcMarkValue
    split
    · next htype hidx => simp [htype, hidx] at hv
    · next htype hidx => simp [htype, hidx] at hv
    · rfl

theorem gcMarkValue_of_some (hv : v.ref = some r) (fuel : ℕ) :
    gcMarkValue (fuel + 1) h v =
      if h.marked r then h else (h.contents r).foldl (gcMarkValue fuel) (h.setMark r) := by
  unfold MetalValue.ref at hv
  split at hv
  · next htype =>
      obtain ⟨i, hi, rfl⟩ := map_eq_some_iff.mp hv
      unfold gcMarkValue
      rw [htype, hi]
      rfl
  · next htype =>
      obtain ⟨i, hi, rfl⟩ := map_eq_some_iff.mp hv
      unfold gcMarkValue
      rw [htype, hi]
      rfl
  · cases hv

/-- The heaps differ in their marks at most. -/
structure SameObjects (h h' : MetalHeap) : Prop where
  contents : h'.contents = h.contents
  size : h'.size = h.size

namespace SameObjects
variable {h h₁ h₂ : MetalHeap}

theorem refl (h : MetalHeap) : SameObjects h h := ⟨rfl, rfl⟩

theorem trans (h₁₂ : SameObjects h h₁) (h₂₃ : SameObjects h₁ h₂) : SameObjects h h₂ :=
  ⟨h₂₃.contents.trans h₁₂.contents, h₂₃.size.trans h₁₂.size⟩

theorem next (hs : SameObjects h h₁) : h₁.next = h.next := by
  unfold MetalHeap.next
  rw [hs.contents]

end SameObjects

theorem sameObjects_setMark (r : MetalRef) : SameObjects h (h.setMark r) := by
  obtain ⟨kind, i⟩ := r
  constructor
  · funext s
    obtain ⟨kind', j⟩ := s
    cases kind <;> cases kind' <;> simp only [contents, setMark, setArray, setDict]
    all_goals
      by_cases hij : j = i
      · subst hij
        rw [Function.update_self]
      · rw [Function.update_of_ne hij]
  · funext kind'
    cases kind <;> cases kind' <;> rfl

theorem marked_setMark (r s : MetalRef) : (h.setMark r).marked s = (h.marked s || s = r) := by
  obtain ⟨kind, i⟩ := r
  obtain ⟨kind', j⟩ := s
  cases kind <;> cases kind' <;> simp only [marked, setMark, setArray, setDict] <;> try simp
  all_goals
    by_cases hij : j = i
    · subst hij
      simp
    · simp [hij]

def allRefs : Finset MetalRef :=
  (Finset.range metalPoolMax).image (⟨.arr, ·⟩) ∪ (Finset.range metalPoolMax).image (⟨.dict, ·⟩)

theorem mem_allRefs : r ∈ allRefs ↔ r.index < metalPoolMax := by
  obtain ⟨kind, i⟩ := r
  cases kind <;> simp [allRefs]

theorem card_allRefs_le : allRefs.card ≤ 2 * metalPoolMax := by
  have h₁ := Finset.card_image_le (s := Finset.range metalPoolMax)
    (f := fun i => (⟨.arr, i⟩ : MetalRef))
  have h₂ := card_image_le (s := range metalPoolMax)
    (f := fun i => (⟨.dict, i⟩ : MetalRef))
  have h₃ := Finset.card_union_le
    ((Finset.range metalPoolMax).image fun i => (⟨.arr, i⟩ : MetalRef))
    ((Finset.range metalPoolMax).image fun i => (⟨.dict, i⟩ : MetalRef))
  rw [Finset.card_range] at h₁ h₂
  unfold allRefs
  omega

def marks : Finset MetalRef := allRefs.filter fun r => h.marked r

theorem mem_marks : r ∈ h.marks ↔ r.index < metalPoolMax ∧ h.marked r := by
  simp [marks, mem_allRefs]

theorem mem_allRefs_of_next {r s : MetalRef} (hs : s ∈ h.next r) : s ∈ allRefs := by
  obtain ⟨v, -, hv⟩ := mem_filterMap.mp hs
  exact mem_allRefs.mpr (index_lt_of_ref hv)

theorem marks_setMark (hr : r.index < metalPoolMax) :
    (h.setMark r).marks = insert r h.marks := by
  ext s
  rw [mem_marks, marked_setMark, mem_insert, mem_marks]
  by_cases hs : s = r
  · subst hs
    simp [hr]
  · simp [hs]

/-- `h'` is `h` with what the depth-first search from `vs` marks. -/
structure MarkedFrom (fuel : ℕ) (h : MetalHeap) (vs : List MetalValue) (h' : MetalHeap) : Prop where
  same : SameObjects h h'
  marks : h'.marks = (vs.filterMap (·.ref)).foldl (Marking.mark h.next fuel) h.marks

theorem foldl_markedFrom {fuel : ℕ}
    (hone : ∀ h v, MarkedFrom fuel h [v] (gcMarkValue fuel h v)) (h : MetalHeap)
    (vs : List MetalValue) : MarkedFrom fuel h vs (vs.foldl (gcMarkValue fuel) h) := by
  induction vs generalizing h with
  | nil => exact ⟨SameObjects.refl h, rfl⟩
  | cons v vs ih =>
    obtain ⟨hsame, hmarks⟩ := hone h v
    obtain ⟨hsame', hmarks'⟩ := ih (gcMarkValue fuel h v)
    refine ⟨hsame.trans hsame', ?_⟩
    rw [foldl_cons, hmarks', hmarks, hsame.next, ← foldl_append,
      ← filterMap_append, singleton_append]

theorem gcMarkValue_markedFrom (fuel : ℕ) (h : MetalHeap) (v : MetalValue) :
    MarkedFrom fuel h [v] (gcMarkValue fuel h v) := by
  induction fuel generalizing h v with
  | zero =>
    refine ⟨SameObjects.refl h, ?_⟩
    cases hv : v.ref <;> simp [hv, gcMarkValue, Marking.mark]
  | succ fuel ih =>
    cases hv : v.ref with
    | none =>
      rw [gcMarkValue_of_none h hv]
      exact ⟨SameObjects.refl h, by simp [hv]⟩
    | some r =>
      have hr := index_lt_of_ref hv
      have hrefs : [v].filterMap (·.ref) = [r] := by simp [hv]
      have hmem : r ∈ h.marks ↔ h.marked r = true := by simp [mem_marks, hr]
      rw [gcMarkValue_of_some h hv]
      by_cases hm : h.marked r = true
      · rw [if_pos hm]
        refine ⟨SameObjects.refl h, ?_⟩
        rw [hrefs, foldl_cons, foldl_nil, Marking.mark, if_pos (hmem.mpr hm)]
      · obtain ⟨hsame, hmarks⟩ := foldl_markedFrom ih (h.setMark r) (h.contents r)
        have hset := h.sameObjects_setMark r
        rw [if_neg hm]
        refine ⟨hset.trans hsame, ?_⟩
        rw [hmarks, hset.next, h.marks_setMark hr, hrefs, foldl_cons, foldl_nil,
          Marking.mark, if_neg (mt hmem.mp hm)]
        rfl

theorem sameObjects_cleared : SameObjects h h.cleared := by
  constructor
  · funext r
    obtain ⟨kind, i⟩ := r
    cases kind <;> simp only [contents, cleared] <;> split_ifs <;> rfl
  · funext kind
    cases kind <;> rfl

theorem not_marked_cleared (hr : r.index < h.size r.kind) :
    h.cleared.marked r = false := by
  obtain ⟨kind, i⟩ := r
  cases kind <;> simp only [size] at hr <;> simp [marked, cleared, hr]

/-- `h'` is what a collection from `roots` makes of `h`. -/
structure Collected (h : MetalHeap) (roots : List MetalValue) (h' : MetalHeap) : Prop where
  same : SameObjects h h'
  tidy : h'.Tidy
  reached_of_live : ∀ r, h'.Live r → h.Reached roots r
  live_of_reached : ∀ r, h.Reached roots r → h'.Live r

theorem sameObjects_gc (roots : List MetalValue) : SameObjects h (h.gc roots) :=
  h.sameObjects_cleared.trans
    (foldl_markedFrom (gcMarkValue_markedFrom (2 * metalPoolMax + 1)) h.cleared roots).same

theorem gc_marks (roots : List MetalValue) :
    Marking.Marks h.next h.cleared.marks (roots.filterMap (·.ref)) (h.gc roots).marks := by
  have hmarks : (h.gc roots).marks = _ :=
    (foldl_markedFrom (gcMarkValue_markedFrom (2 * metalPoolMax + 1)) h.cleared roots).marks
  rw [hmarks, h.sameObjects_cleared.next]
  apply Marking.marks_foldl (U := allRefs)
  · exact fun x _ y hy => h.mem_allRefs_of_next hy
  · intro r hr
    obtain ⟨v, -, hv⟩ := mem_filterMap.mp hr
    exact mem_allRefs.mpr (index_lt_of_ref hv)
  · have hle := card_le_card (sdiff_subset (s := allRefs) (t := h.cleared.marks))
    have hcard := card_allRefs_le
    omega

theorem reached_of_marked {roots : List MetalValue} (hlt : r.index < h.size r.kind)
    (hmem : r ∈ (h.gc roots).marks) : h.Reached roots r := by
  have hnot : r ∉ h.cleared.marks := by simp [mem_marks, h.not_marked_cleared hlt]
  apply ((h.gc_marks roots).least {s | h.Reached roots s} ?_ ?_ r hmem).resolve_left hnot
  · rintro x ⟨v, hv, r₀, hr₀, hpath⟩ y hy
    exact ⟨v, hv, r₀, hr₀, hpath.tail hy⟩
  · intro s hs
    obtain ⟨v, hv, hvs⟩ := mem_filterMap.mp hs
    exact ⟨v, hv, s, hvs, Relation.ReflTransGen.refl⟩

theorem gc_collected {h : MetalHeap} (ht : h.Tidy) {roots : List MetalValue}
    (hroots : ∀ v ∈ roots, h.LiveValue v) : Collected h roots (h.gc roots) := by
  have hsame := h.sameObjects_gc roots
  have hM := h.gc_marks roots
  have hmem {r : MetalRef} (hr : (h.gc roots).Live r) : r ∈ (h.gc roots).marks := by
    have hlt : r.index < h.size r.kind := hsame.size ▸ hr.index_lt
    exact (mem_marks _).mpr ⟨hlt.trans_le (ht.size_le r.kind), hr.marked⟩
  have hreached {r : MetalRef} (hr : (h.gc roots).Live r) : h.Reached roots r :=
    h.reached_of_marked (hsame.size ▸ hr.index_lt) (hmem hr)
  have hlive {r : MetalRef} (hr : h.Live r) (hm : r ∈ (h.gc roots).marks) : (h.gc roots).Live r :=
    ⟨hsame.size ▸ hr.index_lt, ((mem_marks _).mp hm).2⟩
  have hnext {r s : MetalRef} (hr : (h.gc roots).Live r) (hs : s ∈ h.next r) :
      (h.gc roots).Live s := by
    have hold : h.Live r := ht.live_of_reached hroots (hreached hr)
    have hnot : r ∉ h.cleared.marks := by simp [mem_marks, h.not_marked_cleared hold.index_lt]
    exact hlive (ht.next_live r hold s hs) (hM.closed r (hmem hr) hnot s hs)
  refine ⟨hsame, ⟨hsame.size ▸ ht.size_le, ?_⟩, fun r hr => hreached hr, ?_⟩
  · intro r hr s hs
    rw [hsame.next] at hs
    exact hnext hr hs
  · rintro r ⟨v, hv, r₀, hr₀, hpath⟩
    induction hpath with
    | refl =>
      exact hlive (hroots v hv r₀ hr₀) (hM.start r₀ (mem_filterMap.mpr ⟨v, hv, hr₀⟩))
    | tail _ hstep ih => exact hnext ih hstep

end MetalHeap
end SageOS
