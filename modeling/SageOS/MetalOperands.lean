import SageOS.MetalSafety

/-!
# Instructions that trust their operands

The constant index of the name instructions, the argument count of a call, the element count of an
array and the offset of a backward jump are used without a check. `OperandsOk` says what they have
to satisfy in the state in which they are read; under it a step makes no access out of bounds, and
so does every run whose states satisfy it.
-/
namespace SageOS.MetalVM
open Checked
variable {host : MetalHost} {vm : MetalVM}

/-- The operands of an instruction, read in the state after its opcode, address existing
constants, stack entries and code. -/
def OperandsOk (vm : MetalVM) : OpCode → Prop
  | .defineGlobal | .getGlobal | .setGlobal | .importModule =>
    vm.ip + 1 < vm.code.length → vm.operandU16 < vm.constants.count
  | .defineFn => vm.ip + 3 < vm.code.length → vm.operandU16 < vm.constants.count
  | .call | .callMethod => vm.operandU8 < vm.sp
  | .array | .tuple => vm.operandU16 ≤ vm.sp
  | .loopBack => (vm.operandU16 : ℤ) ≤ vm.ip + 2
  | _ => True

instance decidableOperandsOk (vm : MetalVM) (op : OpCode) : Decidable (vm.OperandsOk op) := by
  cases op <;> unfold OperandsOk <;> infer_instance

theorem nameHash_spec (idx : ℕ) :
    Spec (fun s => Inv s ∧ idx < s.constants.count) (nameHash idx) fun _ => Inv := by
  rintro s ⟨h, hidx⟩
  unfold nameHash
  rw [run_bind_of (constAt_run hidx)]
  exact Keeps.bind (keeps_stringAt _) (fun _ => .pure _) s h

theorem pop_nameHash_spec (idx : ℕ) {f : MetalValue → UInt32 → Run Unit}
    (hf : ∀ v hash, Keeps Inv (f v hash)) :
    Spec (fun s => Inv s ∧ idx < s.constants.count)
      (do let v ← pop; let hash ← nameHash idx; f v hash) fun _ => Inv := by
  rintro s ⟨h, hidx⟩
  rw [run_bind_of (pop_run h)]
  exact Spec.bind (nameHash_spec idx) (fun hash => hf _ hash) _
    ⟨h.withSp (le_trans (Nat.sub_le _ _) h.sp), hidx⟩

theorem unlessError_spec {P : MetalVM → Prop} {rest : Run Bool} (hP : ∀ s, P s → Inv s)
    (hrest : Spec (fun s => P s ∧ s.error = none) rest fun _ => Inv) :
    Spec P (unlessError rest) fun _ => Inv := by
  refine Spec.get fun s hs => Spec.ite (fun _ => Spec.pure fun _ he => he ▸ hP s hs) fun hnone => ?_
  rintro s' rfl
  exact hrest s' ⟨hs, Option.not_isSome_iff_eq_none.mp hnone⟩

theorem readU16_spec (h : Inv vm) : Spec (· = vm) readU16 fun a s => Inv s ∧ a = vm.operandU16 ∧
    (s.error = none →
      vm.ip + 1 < vm.code.length ∧ vm.error = none ∧ s = { vm with ip := vm.ip + 2 }) := by
  rintro s rfl
  obtain ⟨a, s', hrun, hinv⟩ := keeps_readU16 s h
  refine ⟨a, s', hrun, hinv, ?_⟩
  rw [readU16_run h] at hrun
  cases hrun
  refine ⟨rfl, fun hnone => ?_⟩
  split_ifs at hnone ⊢ with hlen
  exact ⟨by omega, hnone, rfl⟩

theorem named_spec {rest : ℕ → Run Unit}
    (hrest : ∀ idx, Spec (fun s => Inv s ∧ idx < s.constants.count) (rest idx) fun _ => Inv)
    (h : Inv vm) (hidx : vm.ip + 1 < vm.code.length → vm.operandU16 < vm.constants.count) :
    Spec (· = vm) (do let idx ← readU16; unlessError (goOn (rest idx))) fun _ => Inv := by
  refine Spec.bind (readU16_spec h) fun idx => unlessError_spec (fun _ hs => hs.1) ?_
  refine Spec.bind (Spec.mono (hrest idx) ?_ fun _ _ hs => hs) fun _ => Keeps.pure true
  rintro s ⟨⟨hs, rfl, hread⟩, hnone⟩
  obtain ⟨hlen, -, rfl⟩ := hread hnone
  exact ⟨hs, hidx hlen⟩

theorem opDefineGlobal_spec (h : Inv vm) (hok : vm.OperandsOk .defineGlobal) :
    Spec (· = vm) opDefineGlobal fun _ => Inv :=
  named_spec (fun idx => pop_nameHash_spec idx fun _ _ => keeps_scopeDefine _ _ _) h hok

theorem opSetGlobal_spec (h : Inv vm) (hok : vm.OperandsOk .setGlobal) :
    Spec (· = vm) opSetGlobal fun _ => Inv :=
  named_spec (fun idx => pop_nameHash_spec idx fun _ _ => keeps_scopeAssign _ _) h hok

theorem opImport_spec (h : Inv vm) (hok : vm.OperandsOk .importModule) :
    Spec (· = vm) opImport fun _ => Inv :=
  named_spec (fun idx => Spec.bind (nameHash_spec idx) fun _ => Keeps.pure ()) h hok

theorem opGetGlobal_spec (h : Inv vm) (hok : vm.OperandsOk .getGlobal) :
    Spec (· = vm) opGetGlobal fun _ => Inv := by
  refine named_spec (fun idx => Spec.bind (nameHash_spec idx) fun hash => ?_) h hok
  refine Spec.get fun s hs => ?_
  refine Spec.mono (Spec.bind (scopeLookup_spec hash hs.scopeDepth) fun r => ?_)
    (fun _ he => he ▸ hs) fun _ _ hs => hs
  cases r with
  | some x => exact Spec.mono (keeps_push _) (fun _ hs => hs.1) fun _ _ hs => hs
  | none => exact Spec.mono (keeps_push _) (fun _ hs => hs.1) fun _ _ hs => hs

theorem opDefineFn_spec (h : Inv vm) (hok : vm.OperandsOk .defineFn) :
    Spec (· = vm) opDefineFn fun _ => Inv := by
  refine Spec.bind (readU16_spec h) fun nameIdx => ?_
  rintro s ⟨hs, rfl, hread⟩
  refine Spec.bind (readU16_spec hs) (fun fnIdx => unlessError_spec (fun _ hs => hs.1) ?_) s rfl
  refine Spec.bind (Spec.bind (Spec.mono (nameHash_spec vm.operandU16) ?_ fun _ _ hs => hs)
    fun hash => keeps_scopeDefine hash _ _) fun _ => Keeps.pure true
  rintro s' ⟨⟨hs', -, hread'⟩, hnone'⟩
  obtain ⟨hlen', hnone, rfl⟩ := hread' hnone'
  obtain ⟨-, -, rfl⟩ := hread hnone
  exact ⟨hs', hok (by dsimp only at hlen'; omega)⟩

theorem opLoopBack_spec (h : Inv vm) (hok : vm.OperandsOk .loopBack) :
    Spec (· = vm) opLoopBack fun _ => Inv := by
  rintro s rfl
  have hip := h.ip
  unfold opLoopBack goOn
  simp only [bind_assoc]
  rw [run_bind_of (readU16_run h), run_modify_bind]
  refine ⟨_, _, rfl, ?_⟩
  have hback : (s.operandU16 : ℤ) ≤ s.ip + 2 := hok
  split_ifs with hlen
  · have hzero : s.operandU16 = 0 := if_pos hlen
    exact (h.withData _ _ _ _ _ _).withIp (by dsimp only; omega)
  · exact h.withIp (by dsimp only; omega)

theorem newArray_run (vm : MetalVM) : newArray vm = some ((vm.heap.metalArrayNew vm.roots).1,
    { vm with heap := (vm.heap.metalArrayNew vm.roots).2 }) := rfl

theorem opArray_spec (h : Inv vm) (hok : vm.operandU16 ≤ vm.sp) :
    Spec (· = vm) opArray fun _ => Inv := by
  rintro s rfl
  obtain ⟨count, s₁, hread, h₁⟩ := keeps_readU16 s h
  have hcount : count ≤ s₁.sp := by
    rw [readU16_run h] at hread
    cases hread
    split_ifs <;> exact hok
  unfold opArray
  rw [run_bind_of hread, run_bind_of (newArray_run s₁)]
  have h₂ : Inv { s₁ with heap := (s₁.heap.metalArrayNew s₁.roots).2 } := h₁.withData _ _ _ _ _ _
  cases (s₁.heap.metalArrayNew s₁.roots).1 with
  | none => exact keeps_fail _ _ h₂
  | some arr =>
    have hsp₁ := h₁.sp
    refine keeps_goOn (Keeps.bind (Keeps.forM fun i hi => ?_) fun _ =>
      (keeps_dropStack count).bind fun _ => keeps_push _) _ h₂
    have hlt := List.mem_range.mp hi
    intro s₂ hs₂
    rw [run_bind_of (stackAt_run (by dsimp only; omega) (by dsimp only; omega) s₂)]
    exact keeps_onHeap _ s₂ hs₂

theorem bindParams_run (params : List (UInt32 × ℕ)) {argc : ℕ} (h : Inv vm) (hargc : argc ≤ vm.sp) :
    ∃ scopes, bindParams argc params vm = some ((), { vm with scopes := scopes }) := by
  induction params generalizing vm with
  | nil => exact ⟨vm.scopes, rfl⟩
  | cons p params ih =>
    have hsp := h.sp
    have hbody : ∃ scopes, (do
        let vm ← get
        if p.2 < argc then
          let arg ← stackAt (vm.sp - argc + p.2)
          scopeDefine p.1 (-1) arg
        else scopeDefine p.1 (-1) mvNil : Run Unit) vm =
          some ((), { vm with scopes := scopes }) := by
      rw [run_get_bind, run_ite]
      split_ifs with hp
      · rw [run_bind_of (stackAt_run (by omega) (by omega) vm)]
        exact scopeDefine_run h.scopeDepth _ _ _
      · exact scopeDefine_run h.scopeDepth _ _ _
    obtain ⟨scopes, hrun⟩ := hbody
    have hnext : Inv { vm with scopes := scopes } := h.withData _ _ _ _ _ _
    obtain ⟨scopes', hrest⟩ := ih hnext hargc
    exact ⟨scopes', (run_bind_of hrun _).trans hrest⟩

end SageOS.MetalVM
