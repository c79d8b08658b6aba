import SageOS.MetalHeldSteps

/-!
# Slots of live objects are not given away

A collection in the middle of an instruction keeps what the stack and the scopes reach. What only
the instruction or a C function holds survives it only if it can be reached from there as well. So a
run is safe when each array slice and each call of a C function finds free slots or holds nothing
else, and no function returns above the top of the stack.
-/
namespace SageOS
open Checked MetalHeap MetalVM List Function

/-- Every object among `vs` can be reached from the stack or a live scope. -/
def MetalVM.Covers (vm : MetalVM) (vs : List MetalValue) : Prop :=
  ∀ v ∈ vs, ∀ r ∈ v.ref, vm.heap.Reached vm.roots r

/-- Each allocation finds one of the `free` slots; the first one need not if `covered`. -/
def NativeProgram.Fits : (PoolKind → ℕ) → Prop → NativeProgram → Prop
  | _, _, .ret _ => True
  | free, covered, .alloc kind rest => (0 < free kind ∨ covered) ∧
    ∀ slot, (rest slot).Fits (update free kind (free kind - 1)) False
  | free, _, .arrayPush _ _ rest => rest.Fits free False
  | free, _, .dictSet _ _ _ rest => rest.Fits free False
  | free, covered, .intern _ rest => ∀ i, (rest i).Fits free covered
  | free, covered, .stringGet _ rest => ∀ s, (rest s).Fits free covered
  | free, covered, .arrayLen _ rest => ∀ n, (rest n).Fits free covered
  | free, covered, .dictKeys _ rest => ∀ ks, (rest ks).Fits free covered

namespace MetalVM
variable {host : NativeHost} {held : List MetalValue} {s : MetalVM} {log : List SlotAllocation}
  {α β : Type}

def dropped (vm : MetalVM) (n : ℕ) : MetalVM := { vm with sp := vm.sp - n }

def top (vm : MetalVM) : MetalValue := if vm.sp = 0 then mvNil else vm.stack (vm.sp - 1)

def sliceOperands (vm : MetalVM) : List MetalValue :=
  [(vm.dropped 2).top, (vm.dropped 1).top, vm.top]

def nativeArgs (vm : MetalVM) (argc : ℕ) : List MetalValue :=
  (range (min argc 16)).map fun i => vm.stack (vm.sp - argc + i)

def calledNative (vm : MetalVM) : Option ℕ :=
  let callee := vm.stack (vm.sp - vm.operandU8 - 1)
  if callee.type = .str then
    (vm.natives.find? (·.1 = metalFnv1a (metalStringGet vm.strings callee.int))).map (·.2)
  else none

/-- The condition under which an instruction gives no slot away. -/
def OpGuard (host : NativeHost) (vm : MetalVM) : OpCode → Prop
  | .slice => (vm.dropped 2).top.type = .arr →
    0 < vm.heap.freeSlots .arr ∨ (vm.dropped 3).Covers vm.sliceOperands
  | .call => ∀ id, vm.calledNative = some id →
    ((host.native id).body (vm.nativeArgs vm.operandU8)).Fits vm.heap.freeSlots
      ((vm.dropped (vm.operandU8 + 1)).Covers (vm.nativeArgs vm.operandU8))
  | .ret => 0 < vm.frameCount → (vm.callStack (vm.frameCount - 1)).spBase ≤ vm.sp
  | _ => True

def StepGuard (host : NativeHost) (vm : MetalVM) : Prop :=
  vm.halted = false → vm.error = none → vm.ip < vm.code.length →
    ∀ op, OpCode.ofByte (vm.codeByte vm.ip) = some op → OpGuard host { vm with ip := vm.ip + 1 } op

/-- No slot in the log was in use when it was returned. -/
def LogOk (log : List SlotAllocation) : Prop := ∀ a ∈ log, ¬ a.StillHeld

def SoundTrace (held : List MetalValue) (t : MetalVM × List SlotAllocation) : Prop :=
  Sound held t.1 ∧ LogOk t.2

theorem ends_untraced {m : Run α} {Q : α → MetalVM → Prop} (hm : Ends (· = s) m Q) :
    Ends (· = (s, log)) (untraced m) fun a t => ∃ s', t = (s', log) ∧ Q a s' := by
  rintro _ rfl a t hrun
  obtain ⟨r, hr, he⟩ := Option.map_eq_some_iff.mp hrun
  cases he
  exact ⟨r.2, rfl, hm s rfl r.1 r.2 hr⟩

/-- The heap that an allocation starts from or has collected. -/
structure KeptBy (h : MetalHeap) (vs : List MetalValue) (h₁ : MetalHeap) : Prop where
  same : SameObjects h h₁
  tidy : h₁.Tidy
  live : ∀ v ∈ vs, h₁.LiveValue v
  free : ∀ kind, h.freeSlots kind ≤ h₁.freeSlots kind

theorem keptBy_refl (hs : Sound held s) : KeptBy s.heap (s.roots ++ held) s.heap where
  same := SameObjects.refl _
  tidy := hs.tidy
  live v hv := (mem_append.mp hv).elim (hs.roots v) (hs.held v)
  free _ := le_rfl

theorem keptBy_gc (hs : Sound held s) (hcov : s.Covers held) :
    KeptBy s.heap (s.roots ++ held) (s.heap.gc s.roots) := by
  have hgc := gc_collected hs.tidy hs.roots
  refine ⟨hgc.same, hgc.tidy, ?_, ?_⟩
  · intro v hv r hr
    apply hgc.live_of_reached
    rcases mem_append.mp hv with hv | hv
    · exact ⟨v, hv, r, hr, Relation.ReflTransGen.refl⟩
    · exact hcov v hv r hr
  · intro kind
    apply Finset.card_le_card
    apply Finset.monotone_filter_right
    intro i _ hi hlive
    exact hi (hs.tidy.live_of_reached hs.roots (hgc.reached_of_live _ hlive))

theorem KeptBy.not_stillHeld {h₁ h' : MetalHeap} (hk : KeptBy s.heap (s.roots ++ held) h₁)
    {r : MetalRef} (hp : Placed h₁ r h') : ¬ SlotAllocation.StillHeld ⟨r, s, held⟩ := by
  rintro ⟨v, hv, r₀, hr₀, hpath⟩
  apply hp.free
  apply hk.tidy.live_of_reached hk.live
  exact ⟨v, hv, r₀, hr₀, by rwa [hk.same.next]⟩

theorem KeptBy.sound {h₁ : MetalHeap} (hk : KeptBy s.heap (s.roots ++ held) h₁)
    (hs : Sound held s) {h' : MetalHeap} (ht : h'.Tidy)
    (hlive : ∀ v, h₁.LiveValue v → h'.LiveValue v) : Sound held { s with heap := h' } := by
  have hroot {v : MetalValue} (hv : v ∈ s.roots) : h'.LiveValue v :=
    hlive v (hk.live v (mem_append_left _ hv))
  refine ⟨ht, ?_, hs.depth, ?_, ?_, hs.constants, hs.functions, hs.frames⟩
  · intro i hi
    exact hroot (mem_append_left _ (mem_map_of_mem (mem_range.mpr hi)))
  · intro d hd x hx
    apply hroot
    apply mem_append_right
    apply mem_flatMap.mpr
    refine ⟨d, mem_range.mpr (Nat.lt_succ_of_le hd), ?_⟩
    rw [if_pos (lt_of_le_of_lt hd hs.depth)]
    exact mem_map_of_mem hx
  · intro v hv
    exact hlive v (hk.live v (mem_append_right _ hv))

def afterOne (free : PoolKind → ℕ) (kind : PoolKind) : PoolKind → ℕ :=
  update free kind (free kind - 1)

theorem ends_tracedNew (hs : Sound held s) (hlog : LogOk log) {kind : PoolKind}
    (hcov : 0 < s.heap.freeSlots kind ∨ s.Covers held) :
    Ends (· = (s, log)) (tracedNew held kind) fun slot t =>
      SoundTrace (newValues kind slot ++ held) t ∧
      (∀ k, afterOne s.heap.freeSlots kind k ≤ t.1.heap.freeSlots k) ∧
      ∃ heap, t.1 = { s with heap := heap } := by
  rintro _ rfl slot t hrun
  have hnew : newObject kind s = some ((s.heap.metalNew s.roots kind).1,
      { s with heap := (s.heap.metalNew s.roots kind).2 }) := by
    cases kind <;> rfl
  unfold tracedNew at hrun
  rw [hnew] at hrun
  cases hrun
  obtain ⟨h₁, hk, halloc⟩ : ∃ h₁, KeptBy s.heap (s.roots ++ held) h₁ ∧
      Allocated h₁ kind (s.heap.metalNew s.roots kind) := by
    rcases metalNew_allocated hs.tidy hs.roots kind with halloc | ⟨hzero, halloc⟩
    · exact ⟨s.heap, keptBy_refl hs, halloc⟩
    · exact ⟨_, keptBy_gc hs (hcov.resolve_left (by omega)), halloc⟩
  generalize s.heap.metalNew s.roots kind = r at halloc
  cases halloc with
  | full =>
    refine ⟨⟨hk.sound hs hk.tidy fun _ h => h, by simpa [LogOk] using hlog⟩, ?_, _, rfl⟩
    intro k
    refine le_trans ?_ (hk.free k)
    unfold afterOne
    by_cases hkk : k = kind
    · subst hkk
      rw [update_self]
      exact Nat.sub_le _ 1
    · rw [update_of_ne hkk]
  | @slot i h' hp =>
    have hsound := hk.sound hs (hp.tidy hk.tidy) fun _ => hp.liveValue
    have hvalue : h'.LiveValue (.ofInt kind.type i) := by
      intro r hr
      rw [ref_ofInt kind hp.index_lt] at hr
      exact (hp.live_iff r).mpr (.inr (Option.some.inj hr).symm)
    refine ⟨⟨hsound.cons hvalue, ?_⟩, ?_, _, rfl⟩
    · intro a ha
      rcases mem_append.mp ha with ha | ha
      · exact hlog a ha
      · rw [mem_singleton.mp ha]
        exact hk.not_stillHeld hp
    · intro k
      unfold afterOne
      have hfree := hk.free k
      by_cases hkk : k = kind
      · subst hkk
        have hself : h'.freeSlots k + 1 = h₁.freeSlots k := hp.freeSlots_self
        rw [update_self]
        dsimp only
        omega
      · rw [update_of_ne hkk]
        exact hfree.trans (hp.freeSlots_of_ne hkk).ge

theorem Stores.freeSlots {h h' : MetalHeap} {v : MetalValue} (hs : Stores h v h')
    (kind : PoolKind) : h'.freeSlots kind = h.freeSlots kind := by
  unfold MetalHeap.freeSlots
  rw [Finset.filter_congr (q := fun i => ¬ h.Live ⟨kind, i⟩)]
  intro i _
  rw [hs.live_iff]

theorem ends_onHeap (hs : Sound held s) (hlog : LogOk log) {v : MetalValue} (hv : Storable held v)
    {f : MetalHeap → MetalHeap} (hf : ∀ h, Stores h v (f h)) :
    Ends (· = (s, log)) (untraced (onHeap f)) fun _ t =>
      SoundTrace held t ∧ ∀ kind, t.1.heap.freeSlots kind = s.heap.freeSlots kind := by
  rintro _ rfl a t hrun
  cases hrun
  exact ⟨⟨hs.store hv (hf s.heap), hlog⟩, (hf s.heap).freeSlots⟩

theorem ends_tracedNative {p : NativeProgram} {free : PoolKind → ℕ} {covered : Prop}
    (hp : p.Honest held) (hfits : p.Fits free covered) (hfree : ∀ k, free k ≤ s.heap.freeSlots k)
    (hcov : covered → s.Covers held) (hs : Sound held s) (hlog : LogOk log) :
    Ends (· = (s, log)) (tracedNative held p) fun v t => SoundTrace (v :: held) t := by
  induction p generalizing held s log free covered with
  | ret v =>
    apply Ends.pure
    rintro _ rfl
    exact ⟨hs.cons (hs.live hp), hlog⟩
  | alloc kind rest ih =>
    have hroom : 0 < s.heap.freeSlots kind ∨ s.Covers held :=
      hfits.1.imp (fun h => h.trans_le (hfree kind)) hcov
    refine .bind (ends_tracedNew hs hlog hroom) fun slot => ?_
    rintro ⟨s', log'⟩ ⟨⟨hs', hlog'⟩, hfree', -⟩ v t hrun
    have hrest : ∀ k, afterOne free kind k ≤ s'.heap.freeSlots k := by
      intro k
      refine le_trans ?_ (hfree' k)
      unfold afterOne
      by_cases hk : k = kind
      · subst hk
        simp only [update_self]
        exact Nat.sub_le_sub_right (hfree k) 1
      · simp only [update_of_ne hk]
        exact hfree k
    obtain ⟨hsound, hok⟩ :=
      ih slot (hp slot) (hfits.2 slot) hrest False.elim hs' hlog' _ rfl v t hrun
    exact ⟨hsound.mono (cons_subset_cons v (subset_append_right _ _)), hok⟩
  | arrayPush arr v rest ih =>
    refine .bind (ends_onHeap hs hlog hp.1 fun h => Stores.metalArrayPush h arr v) fun _ => ?_
    rintro ⟨s', log'⟩ ⟨⟨hs', hlog'⟩, hfree'⟩
    exact ih hp.2 hfits (fun k => (hfree k).trans (hfree' k).ge) False.elim hs' hlog' _ rfl
  | dictSet dict key v rest ih =>
    refine .bind
      (ends_onHeap hs hlog hp.1 fun h => Stores.metalDictSet h dict key v) fun _ => ?_
    rintro ⟨s', log'⟩ ⟨⟨hs', hlog'⟩, hfree'⟩
    exact ih hp.2 hfits (fun k => (hfree k).trans (hfree' k).ge) False.elim hs' hlog' _ rfl
  | intern str rest ih =>
    rintro _ rfl v t hrun
    have hs' := hs.withStatus s.code s.ip (metalStringIntern s.strings str).2 s.halted s.error
    exact ih _ (s := { s with strings := (metalStringIntern s.strings str).2 }) (hp _) (hfits _)
      hfree hcov hs' hlog _ rfl v t hrun
  | stringGet idx rest ih =>
    rintro _ rfl v t hrun
    exact ih _ (hp _) (hfits _) hfree hcov hs hlog _ rfl v t hrun
  | arrayLen arr rest ih =>
    rintro _ rfl v t hrun
    exact ih _ (hp _) (hfits _) hfree hcov hs hlog _ rfl v t hrun
  | dictKeys dict rest ih =>
    rintro _ rfl v t hrun
    exact ih _ (hp _) (hfits _) hfree hcov hs hlog _ rfl v t hrun

theorem ends_plain {m : Run α} (hm : Ends (· = s) m fun _ => Sound held) (hlog : LogOk log) :
    Ends (· = (s, log)) (untraced m) fun _ t => SoundTrace held t :=
  Ends.mono (ends_untraced hm) (fun _ h => h) fun _ _ ⟨_, he, hs⟩ => he ▸ ⟨hs, hlog⟩

theorem ends_done {m : Run Bool} (hs : Sound held s) (hlog : LogOk log) (hm : Done held m) :
    Ends (· = (s, log)) (untraced m) fun _ t => SoundTrace [] t :=
  Ends.mono (ends_plain (hm.at_state hs) hlog) (fun _ h => h)
    fun _ _ h => ⟨h.1.mono (nil_subset _), h.2⟩

theorem ends_pop_top (s : MetalVM) : Ends (· = s) pop fun w s' => s' = s.dropped 1 ∧ w = s.top := by
  apply Ends.get
  rintro s rfl
  apply Ends.ite
  · intro hsp
    apply Ends.pure
    rintro s rfl
    have hsame : s.sp - 1 = s.sp := by omega
    exact ⟨by rw [dropped, hsame], (if_pos hsp).symm⟩
  · intro hsp
    refine .bind (ends_stackAt _ s) fun w => .bind
      (Ends.modify (Q := fun _ s' => s' = s.dropped 1 ∧ w = s.top) ?_) fun _ =>
      Ends.pure fun _ h => h
    rintro s ⟨rfl, -, rfl⟩
    have hidx : ((s.sp : ℤ) - 1).toNat = s.sp - 1 := by omega
    exact ⟨rfl, by rw [top, if_neg hsp, hidx]⟩

theorem dropped_dropped (m n : ℕ) : (s.dropped m).dropped n = s.dropped (m + n) := by
  unfold dropped
  rw [Nat.sub_sub]

theorem Sound.top_live (hs : Sound held s) : s.heap.LiveValue s.top := by
  unfold top
  split_ifs with hsp
  · exact liveValue_of_ref_none _ ref_mvNil
  · exact hs.stack _ (by omega)

theorem done_copySlice {obj : MetalValue} (hobj : obj ∈ held) (htype : obj.type = .arr)
    (dst a b : ℤ) : Done held (onHeap (copySlice dst obj.int a b)) := by
  apply Hands.modify
  intro s hs
  have hfold (l : List ℕ) : ∀ h : MetalHeap, Sound held { s with heap := h } →
      Sound held { s with heap := l.foldl (fun h i =>
        h.metalArrayPush dst (h.metalArrayGet obj.int (a + i))) h } := by
    induction l with
    | nil => exact fun h hs => hs
    | cons i l ih =>
      intro h hs
      have hlive := liveValue_metalArrayGet hs hobj htype (a + i)
      have hpush := Stores.metalArrayPush h dst (h.metalArrayGet obj.int (a + i))
      exact ih _ (hs.withHeap (hpush.tidy hs.tidy hlive) fun _ => hpush.liveValue)
  exact hfold _ s.heap hs

theorem done_finishNew {kind : PoolKind} {i : ℕ} {m : Run Unit}
    (hm : Done (newValues kind (some i) ++ held) m) :
    Done (newValues kind (some i) ++ held) (goOn do
      m
      push (.ofInt kind.type i)) :=
  done_goOn (hm.bind fun _ => done_push (.inl mem_cons_self))

theorem ends_tracedSlice (hs : Sound [] s) (hlog : LogOk log) (hok : OpGuard host s .slice) :
    Ends (· = (s, log)) (tracedSlice host) fun _ t => SoundTrace [] t := by
  refine .bind (ends_untraced (ends_pop_top s)) fun e => ?_
  rintro _ ⟨s₁, rfl, rfl, rfl⟩
  refine Ends.bind (ends_untraced (ends_pop_top _)) (fun a => ?_) _ rfl
  rintro _ ⟨s₂, rfl, rfl, rfl⟩
  refine Ends.bind (ends_untraced (ends_pop_top _)) (fun obj => ?_) _ rfl
  rintro _ ⟨s₃, rfl, rfl, rfl⟩
  simp only [dropped_dropped, Nat.reduceAdd]
  have hheld : Sound s.sliceOperands (s.dropped 3) :=
    (((hs.withSp (Nat.sub_le s.sp 3)).cons hs.top_live).cons
      (hs.withSp (Nat.sub_le s.sp 1)).top_live).cons (hs.withSp (Nat.sub_le s.sp 2)).top_live
  cases htype : (s.dropped 2).top.type with
  | arr =>
    refine Ends.bind (ends_tracedNew hheld hlog (hok htype)) (fun slot => ?_) _ rfl
    rintro ⟨s₄, log₄⟩ ⟨⟨h₄, hlog₄⟩, -⟩
    cases slot with
    | none => exact ends_done h₄ hlog₄ (done_fail _) _ rfl
    | some i =>
      refine ends_done h₄ hlog₄ (Hands.get fun s₅ h₅ => ?_) _ rfl
      have hobj : (s.dropped 2).top ∈ newValues .arr (some i) ++ s.sliceOperands :=
        mem_append_right _ mem_cons_self
      exact (done_finishNew (done_copySlice hobj htype _ _ _)).at_state h₅
  | str =>
    refine ends_done hheld hlog ((done_stringAt _).bind fun str => ?_) _ rfl
    exact done_goOn ((hands_mvStr _).bind fun w => done_push (storable_head w))
  | nil | num | bool | dict | fn | ptr =>
    exact ends_done hheld hlog (done_goOn (done_push (storable_plain ref_mvNil))) _ rfl

end MetalVM
end SageOS
