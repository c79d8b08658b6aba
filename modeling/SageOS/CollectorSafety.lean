import SageOS.CollectorGuard

/-!
# Traced instructions are sound

The operands of an array or dictionary are on the stack when it is allocated, and splitting a string
holds only strings. A call of a C function is sound when the allocations of the function fit.
-/
namespace SageOS
open List
namespace MetalVM
open Checked MetalHeap
variable {host : NativeHost} {held : List MetalValue} {s : MetalVM} {log : List SlotAllocation}

theorem covers_nil (s : MetalVM) : s.Covers [] := fun _ hv => absurd hv not_mem_nil

theorem done_forM {ι : Type} {l : List ι} {f : ι → Run Unit} (hf : ∀ i ∈ l, Done held (f i)) :
    Done held (l.forM f) := Ends.forM hf

theorem done_pushCells (arr : ℤ) (count : ℕ) (hs : Sound held s) :
    Ends (· = s) ((range count).forM fun i => do
      let v ← stackAt (s.sp - count + i)
      onHeap fun h => h.metalArrayPush arr v) fun _ => Sound held := by
  have hloop : Ends (fun s' => Sound held s' ∧ s'.sp = s.sp) ((range count).forM fun i => do
      let v ← stackAt (s.sp - count + i)
      onHeap fun h => h.metalArrayPush arr v) fun _ s' => Sound held s' ∧ s'.sp = s.sp := by
    apply Ends.forM
    rintro i hi s' ⟨hs', hsp⟩ a s'' hrun
    have hlt : (s.sp : ℤ) - count + i < s'.sp := by
      have := mem_range.mp hi
      omega
    obtain ⟨v, s₁, hat, hpush⟩ := exists_of_run_bind hrun
    obtain ⟨rfl, -, hv⟩ := ends_stackAt_held hs' hlt s' rfl v s₁ hat
    have hstored := done_onHeap (storable_head v) (fun h => Stores.metalArrayPush h arr v) s₁ hv a
      s'' hpush
    refine ⟨hstored.mono (subset_cons_self _ _), ?_⟩
    cases hpush
    exact hsp
  rintro s rfl a s' hrun
  exact (hloop s ⟨hs, rfl⟩ a s' hrun).1

theorem ends_tracedArray (hs : Sound [] s) (hlog : LogOk log) :
    Ends (· = (s, log)) tracedArray fun _ t => SoundTrace [] t := by
  refine .bind (ends_plain (done_readU16.at_state hs) hlog) fun count => ?_
  rintro ⟨s₁, log₁⟩ ⟨h₁, hlog₁⟩
  refine Ends.bind (ends_tracedNew h₁ hlog₁ (.inr (covers_nil s₁))) (fun slot => ?_) _ rfl
  rintro ⟨s₂, log₂⟩ ⟨⟨h₂, hlog₂⟩, -⟩
  cases slot with
  | none => exact ends_done h₂ hlog₂ (done_fail _) _ rfl
  | some arr =>
    refine ends_done h₂ hlog₂ (Hands.get fun s₃ h₃ => ?_) _ rfl
    refine .bind ?_ fun _ => .pure fun _ h => h
    refine .bind (done_pushCells arr count h₃) fun _ => ?_
    exact (done_dropStack count).bind fun _ => done_push (.inl mem_cons_self)

theorem ends_tracedDict (hs : Sound [] s) (hlog : LogOk log) :
    Ends (· = (s, log)) tracedDict fun _ t => SoundTrace [] t := by
  refine .bind (ends_plain (done_readU16.at_state hs) hlog) fun count => ?_
  rintro ⟨s₁, log₁⟩ ⟨h₁, hlog₁⟩
  refine Ends.bind (ends_tracedNew h₁ hlog₁ (.inr (covers_nil s₁))) (fun slot => ?_) _ rfl
  rintro ⟨s₂, log₂⟩ ⟨⟨h₂, hlog₂⟩, -⟩
  cases slot with
  | none => exact ends_done h₂ hlog₂ (done_fail _) _ rfl
  | some dict =>
    refine ends_done h₂ hlog₂ (done_finishNew (done_forM fun _ _ => ?_)) _ rfl
    apply hands_pop.bind
    intro v
    apply hands_pop.bind
    intro key
    have hv : Storable ([key] ++ ([v] ++ (newValues .dict (some dict) ++ ([] ++ [])))) v :=
      Or.inl (mem_cons_of_mem _ mem_cons_self)
    exact done_onHeap hv (stores_ite fun h => Stores.metalDictSet h dict key.int v)

theorem done_pushTokens (arr : ℕ) (tokens : List Bytes) : Done held (pushTokens arr tokens) := by
  apply done_forM
  intro token _
  apply (hands_mvStr token).bind
  intro v
  exact done_onHeap (storable_head v) fun h => Stores.metalArrayPush h arr v

theorem ends_tracedSplit {receiver : MetalValue} (hs : Sound [receiver] s) (hlog : LogOk log)
    (hplain : receiver.type = .str) (argc : ℕ) (str : Bytes) :
    Ends (· = (s, log)) (tracedSplit argc receiver str) fun _ t => SoundTrace [] t := by
  have hcov : s.Covers [receiver] := by
    intro v hv r hr
    rw [mem_singleton.mp hv] at hr
    simp [MetalValue.ref, hplain] at hr
  refine .bind (ends_tracedNew hs hlog (.inr hcov)) fun slot => ?_
  rintro ⟨s₂, log₂⟩ ⟨⟨h₂, hlog₂⟩, -⟩
  cases slot with
  | none => exact ends_done h₂ hlog₂ (done_fail _) _ rfl
  | some arr =>
    exact ends_done h₂ hlog₂ ((done_pushTokens arr _).bind fun _ =>
      done_finishMethod argc (.inl mem_cons_self)) _ rfl

theorem ends_tracedCallMethod (hs : Sound [] s) (hlog : LogOk log) :
    Ends (· = (s, log)) (tracedCallMethod host) fun _ t => SoundTrace [] t := by
  refine .bind (ends_plain (done_readU8.at_state hs) hlog) fun argc => ?_
  rintro ⟨s₁, log₁⟩ ⟨h₁, hlog₁⟩
  refine Ends.bind (ends_plain (done_readU16.at_state h₁) hlog₁) (fun nameIdx => ?_) _ rfl
  rintro ⟨s₂, log₂⟩ ⟨h₂, hlog₂⟩
  refine Ends.bind (ends_plain ((done_stringAt _).at_state h₂) hlog₂) (fun method => ?_) _ rfl
  rintro ⟨s₃, log₃⟩ ⟨h₃, hlog₃⟩
  refine Ends.get (fun t ht => ?_) _ rfl
  subst ht
  refine .bind (ends_untraced (ends_stackAt_held h₃ (by dsimp only; omega))) fun receiver => ?_
  rintro _ ⟨s₄, rfl, rfl, ⟨hpos, -⟩, h₄⟩
  dsimp only at hpos
  cases htype : receiver.type with
  | arr =>
    have hsp : 0 < s₄.sp := by omega
    refine Ends.mono (ends_plain (ends_arrayMethod h₄ hsp argc method receiver) hlog₃)
      (fun _ h => h) (fun _ _ h => ⟨h.1.mono (nil_subset _), h.2⟩) _ rfl
  | str =>
    refine Ends.bind (ends_plain ((done_stringAt receiver.int).at_state h₄) hlog₃)
      (fun str => ?_) _ rfl
    rintro ⟨s₅, log₅⟩ ⟨h₅, hlog₅⟩
    refine Ends.ite (P := (· = (s₅, log₅))) (fun _ => ?_) (fun hsplit => ?_) _ rfl
    · exact ends_tracedSplit (h₅.mono (by simp)) hlog₅ htype argc str
    · exact ends_done h₅ hlog₅ (done_stringMethod argc hsplit receiver)
  | nil | num | bool | dict | fn | ptr => exact ends_done h₄ hlog₃ (done_fail _) _ rfl

theorem ends_takeArgs {argc : ℕ} (hargc : argc < s.sp) :
    Ends (· = s) (takeArgs argc) fun args s' => s' = s ∧ args = s.nativeArgs argc := by
  have hmap (l : List ℕ) : Ends (· = s)
      ((l.map (Nat.cast : ℕ → ℤ)).mapM fun i => stackAt ((s.sp : ℤ) - argc + i))
      fun args s' => s' = s ∧ args = l.map fun i => s.stack (s.sp - argc + i) := by
    induction l with
    | nil => exact .pure fun _ h => ⟨h, rfl⟩
    | cons i l ih =>
      rw [map_cons, mapM_cons]
      refine .bind (ends_stackAt _ s) fun v => ?_
      rintro s ⟨rfl, -, rfl⟩
      refine Ends.bind ih (fun vs => Ends.pure ?_) _ rfl
      rintro s ⟨rfl, rfl⟩
      have hidx : ((s.sp : ℤ) - argc + i).toNat = s.sp - argc + i := by omega
      rw [hidx]
      exact ⟨rfl, rfl⟩
  apply Ends.get
  rintro s rfl
  have hcast (l : List ℕ) : (do let i ← l; pure (i : ℤ) : List ℤ) = l.map (Nat.cast : ℕ → ℤ) :=
    map_eq_flatMap.symm
  rw [hcast]
  exact hmap _

theorem ends_tracedCallNative {argc id : ℕ} (hs : Sound [] s) (hlog : LogOk log)
    (hargc : argc < s.sp)
    (hfits : ((host.native id).body (s.nativeArgs argc)).Fits s.heap.freeSlots
      ((s.dropped (argc + 1)).Covers (s.nativeArgs argc))) :
    Ends (· = (s, log)) (tracedCallNative host argc id) fun _ t => SoundTrace [] t := by
  refine .bind (ends_untraced (ends_takeArgs hargc)) fun args => ?_
  rintro _ ⟨s₁, rfl, rfl, rfl⟩
  have hdrop : Ends (· = s₁) (dropStack (argc + 1)) fun _ s' => s' = s₁.dropped (argc + 1) :=
    Ends.modify fun _ he => he ▸ rfl
  refine Ends.bind (ends_untraced hdrop) (fun _ => ?_) _ rfl
  rintro _ ⟨s₂, rfl, rfl⟩
  have hargs : Sound (s₁.nativeArgs argc) (s₁.dropped (argc + 1)) := by
    have hheld : ∀ v ∈ s₁.nativeArgs argc, s₁.heap.LiveValue v := by
      intro v hv
      obtain ⟨i, hi, rfl⟩ := mem_map.mp hv
      have := mem_range.mp hi
      exact hs.stack _ (by omega)
    exact { hs.withSp (Nat.sub_le s₁.sp (argc + 1)) with held := hheld }
  have hnative := ends_tracedNative (s := s₁.dropped (argc + 1)) ((host.native id).honest _) hfits
    (fun _ => le_rfl) (fun h => h) hargs hlog
  refine Ends.bind hnative (fun v => ?_) _ rfl
  rintro ⟨s₃, log₃⟩ ⟨h₃, hlog₃⟩
  exact ends_done h₃ hlog₃ (done_goOn (done_push (storable_head v))) _ rfl

theorem ends_tracedCall (hs : Sound [] s) (hlog : LogOk log) (hok : OpGuard host s .call) :
    Ends (· = (s, log)) (tracedCall host) fun _ t => SoundTrace [] t := by
  refine .bind (ends_untraced (ends_readU8 s)) fun argc => ?_
  rintro _ ⟨s₁, rfl, rfl, ip, error, rfl⟩
  have h₁ := hs.withStatus s.code ip s.strings s.halted error
  refine Ends.get (fun t ht => ?_) _ rfl
  subst ht
  refine .bind (ends_untraced (ends_stackAt_held h₁ (by dsimp only; omega))) fun callee => ?_
  rintro _ ⟨s₂, rfl, rfl, ⟨hpos, rfl⟩, h₂⟩
  dsimp only at hpos h₂ ⊢
  have hargc : s.operandU8 < s.sp := by omega
  have hidx : ((s.sp : ℤ) - s.operandU8 - 1).toNat = s.sp - s.operandU8 - 1 := by omega
  rw [hidx] at h₂ ⊢
  cases htype : (s.stack (s.sp - s.operandU8 - 1)).type with
  | str =>
    cases hfind : s.natives.find? (·.1 = metalFnv1a (metalStringGet s.strings
        (s.stack (s.sp - s.operandU8 - 1)).int)) with
    | none => exact ends_done h₁ hlog (done_fail _) _ rfl
    | some entry =>
      have hnative : s.calledNative = some entry.2 := by
        unfold calledNative
        rw [if_pos htype, hfind]
        rfl
      exact ends_tracedCallNative h₁ hlog hargc (hok entry.2 hnative) _ rfl
  | fn =>
    refine Ends.ite (P := (· = _)) (fun _ => ?_) (fun _ => ?_) _ rfl
    · exact ends_plain (ends_callFunction h₁ _ (hs.functions _)) hlog
    · exact ends_done h₁ hlog (done_fail _)
  | nil | num | bool | arr | dict | ptr => exact ends_done h₁ hlog (done_fail _) _ rfl

theorem run_untraced {α : Type} {m : Run α} {a : α} {s' : MetalVM} (hm : m s = some (a, s')) :
    untraced m (s, log) = some (a, s', log) := by
  unfold untraced
  rw [hm]
  rfl

theorem readU8_of_inCode (h : InCode s.ip s) :
    readU8 s = some (s.codeByte s.ip, { s with ip := s.ip + 1 }) := by
  unfold readU8
  rw [run_get_bind, run_ite, if_neg (not_le.mpr h.2.1), run_bind_of (codeAt_run h)]
  rfl

theorem readU16_of_inCode (h : InCode s.ip s) (h' : InCode (s.ip + 1) s) :
    readU16 s = some (s.codeByte s.ip * 256 + s.codeByte (s.ip + 1),
      { s with ip := s.ip + 2 }) := by
  unfold readU16
  rw [run_get_bind, run_ite, if_neg (not_le.mpr h'.2.1), run_bind_of (codeAt_run h),
    run_bind_of (codeAt_run h')]
  rfl

theorem tracedStep_run (hhalt : s.halted = false) (herr : s.error = none) (hin : InCode s.ip s)
    {op : OpCode} (hop : OpCode.ofByte (s.codeByte s.ip) = some op) :
    tracedStep host (s, log) = tracedExec host op ({ s with ip := s.ip + 1 }, log) := by
  have hgo : ¬ (s.halted = true ∨ s.error.isSome = true ∨ s.code.length ≤ s.ip) := by
    simpa [hhalt, herr] using hin.2.1
  have herr' : ¬ s.error.isSome = true := by simp [herr]
  unfold tracedStep
  rw [run_get_bind, run_ite, if_neg hgo, run_bind_of (run_untraced (readU8_of_inCode hin)),
    run_get_bind, run_ite, if_neg herr', hop]

theorem push_run (hsp : s.sp < metalStackSize) (v : MetalValue) :
    push v s = some ((), { s with stack := Function.update s.stack s.sp v, sp := s.sp + 1 }) := by
  unfold push
  rw [run_get_bind, run_ite, if_neg (not_le.mpr hsp),
    run_bind_of (setStackAt_run (Int.natCast_nonneg _) (by omega) v s), Int.toNat_natCast]
  rfl

theorem tracedNew_run {kind : PoolKind} {i : ℕ} {heap : MetalHeap}
    (h : s.heap.metalNew s.roots kind = (some i, heap)) :
    tracedNew held kind (s, log) =
      some (some i, { s with heap := heap }, log ++ [⟨⟨kind, i⟩, s, held⟩]) := by
  have hnew : newObject kind s = some ((s.heap.metalNew s.roots kind).1,
      { s with heap := (s.heap.metalNew s.roots kind).2 }) := by
    cases kind <;> rfl
  unfold tracedNew
  rw [hnew, h]
  rfl

theorem pop_of_pos (hpos : 0 < s.sp) (hsp : s.sp ≤ metalStackSize) :
    pop s = some (s.stack (s.sp - 1), { s with sp := s.sp - 1 }) := by
  have hidx : ((s.sp : ℤ) - 1).toNat = s.sp - 1 := by omega
  unfold pop
  rw [run_get_bind, run_ite, if_neg hpos.ne',
    run_bind_of (stackAt_run (by omega) (by omega) s), hidx]
  rfl

end MetalVM
end SageOS
