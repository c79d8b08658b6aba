import SageOS.MetalStep

/-!
# The bounds invariant of the bytecode machine

The stack pointer, the frame count and the scope depth stay inside their arrays, the instruction
pointer is not negative, and the current code, the code of every function and the code of every
saved frame are parts of the image. The primitives and all instructions whose operands are checked
or not used as indices keep the invariant.
-/
namespace SageOS
namespace MetalVM
open Checked

/-- The referenced code is a part of the image. -/
def CodeRefIn (image : Bytes) (c : CodeRef) : Prop :=
  0 ≤ c.base ∧ 0 ≤ c.length ∧ c.base + c.length ≤ image.length

instance decidableCodeRefIn (image : Bytes) (c : CodeRef) : Decidable (CodeRefIn image c) :=
  inferInstanceAs (Decidable (_ ∧ _ ∧ _))

structure FrameIn (image : Bytes) (f : MetalFrame) : Prop where
  ip : 0 ≤ f.ip
  spBase : f.spBase ≤ metalStackSize
  code : CodeRefIn image f.code

structure Inv (vm : MetalVM) : Prop where
  sp : vm.sp ≤ metalStackSize
  frameCount : vm.frameCount ≤ metalCallStack
  scopeDepth : vm.scopeDepth < metalEnvDepth
  ip : 0 ≤ vm.ip
  code : CodeRefIn vm.image vm.code
  functions : ∀ i < vm.fnCount, CodeRefIn vm.image (vm.functions i).code
  frames : ∀ i < vm.frameCount, FrameIn vm.image (vm.callStack i)
  natives : vm.natives = []

variable {vm : MetalVM} {α : Type}
namespace Inv

theorem withData (h : Inv vm) (stack : ℕ → MetalValue) (scopes : ℕ → List MetalVar)
    (heap : MetalHeap) (strings : Bytes) (halted : Bool) (error : Option String) :
    Inv { vm with
      stack := stack, scopes := scopes, heap := heap, strings := strings, halted := halted,
      error := error } :=
  ⟨h.sp, h.frameCount, h.scopeDepth, h.ip, h.code, h.functions, h.frames, h.natives⟩

theorem withIp (h : Inv vm) {ip : ℤ} (hip : 0 ≤ ip) : Inv { vm with ip := ip } :=
  ⟨h.sp, h.frameCount, h.scopeDepth, hip, h.code, h.functions, h.frames, h.natives⟩

theorem withSp (h : Inv vm) {sp : ℕ} (hsp : sp ≤ metalStackSize) : Inv { vm with sp := sp } :=
  ⟨hsp, h.frameCount, h.scopeDepth, h.ip, h.code, h.functions, h.frames, h.natives⟩

theorem withScopeDepth (h : Inv vm) {d : ℕ} (hd : d < metalEnvDepth) :
    Inv { vm with scopeDepth := d } :=
  ⟨h.sp, h.frameCount, hd, h.ip, h.code, h.functions, h.frames, h.natives⟩

theorem inCode (h : Inv vm) {i : ℤ} (h0 : 0 ≤ i) (hi : i < vm.code.length) : InCode i vm := by
  obtain ⟨hbase, -, hend⟩ := h.code
  refine ⟨h0, hi, ?_, ?_⟩ <;> omega

end Inv

theorem keeps_setError (msg : String) : Keeps Inv (setError msg) :=
  .modify fun _ h => h.withData _ _ _ _ _ _

theorem keeps_fail (msg : String) : Keeps Inv (fail msg) :=
  (keeps_setError msg).bind fun _ => .pure false

theorem keeps_goOn {m : Run Unit} (hm : Keeps Inv m) : Keeps Inv (goOn m) :=
  hm.bind fun _ => .pure true

theorem keeps_unlessError {rest : Run Bool} (hrest : Keeps Inv rest) :
    Keeps Inv (unlessError rest) :=
  Keeps.get.bind fun _ => .ite (.pure false) hrest

/-- The operands at the instruction pointer; a missing one reads as zero. -/
def operandU8 (vm : MetalVM) : ℕ := if vm.code.length ≤ vm.ip then 0 else vm.codeByte vm.ip

def operandU16 (vm : MetalVM) : ℕ :=
  if vm.code.length ≤ vm.ip + 1 then 0 else vm.codeByte vm.ip * 256 + vm.codeByte (vm.ip + 1)

variable {i : ℤ}

theorem codeAt_run (h : InCode i vm) : codeAt i vm = some (vm.codeByte i, vm) := by
  unfold codeAt
  rw [run_bind_of (run_require h), run_get_bind, run_pure]

theorem readU8_run (h : Inv vm) : readU8 vm = some (vm.operandU8,
    if vm.code.length ≤ vm.ip then { vm with error := some outOfCode }
    else { vm with ip := vm.ip + 1 }) := by
  unfold readU8 operandU8
  rw [run_get_bind, run_ite]
  split_ifs with hlen
  · rfl
  · rw [run_bind_of (codeAt_run (h.inCode h.ip (by omega)))]
    rfl

theorem readU16_run (h : Inv vm) : readU16 vm = some (vm.operandU16,
    if vm.code.length ≤ vm.ip + 1 then { vm with error := some outOfCode }
    else { vm with ip := vm.ip + 2 }) := by
  have hip := h.ip
  unfold readU16 operandU16
  rw [run_get_bind, run_ite]
  split_ifs with hlen
  · rfl
  · rw [run_bind_of (codeAt_run (h.inCode hip (by omega))),
      run_bind_of (codeAt_run (h.inCode (by omega) (by omega)))]
    rfl

theorem keeps_readU8 : Keeps Inv readU8 := by
  intro vm h
  refine ⟨_, _, readU8_run h, ?_⟩
  have hip := h.ip
  split_ifs
  · exact h.withData _ _ _ _ _ _
  · exact h.withIp (by omega)

theorem keeps_readU16 : Keeps Inv readU16 := by
  intro vm h
  refine ⟨_, _, readU16_run h, ?_⟩
  have hip := h.ip
  split_ifs
  · exact h.withData _ _ _ _ _ _
  · exact h.withIp (by omega)

theorem stackAt_run (h0 : 0 ≤ i) (hi : i < metalStackSize) (vm : MetalVM) :
    stackAt i vm = some (vm.stack i.toNat, vm) := by
  unfold stackAt
  rw [run_bind_of (run_require ⟨h0, hi⟩), run_get_bind, run_pure]

theorem constAt_run {i : ℕ} (h : i < vm.constants.count) :
    constAt i vm = some (vm.constants.decoded.getD i {}, vm) := by
  unfold constAt
  rw [run_bind_of (run_require (p := fun vm : MetalVM => i < vm.constants.count) h),
    run_get_bind, run_pure]

theorem setStackAt_run (h0 : 0 ≤ i) (hi : i < metalStackSize) (v : MetalValue)
    (vm : MetalVM) : setStackAt i v vm =
      some ((), { vm with stack := Function.update vm.stack i.toNat v }) := by
  unfold setStackAt
  rw [run_bind_of (run_require ⟨h0, hi⟩)]
  rfl

theorem keeps_push (v : MetalValue) : Keeps Inv (push v) := by
  intro vm h
  unfold push
  rw [run_get_bind, run_ite]
  split_ifs with hfull
  · exact keeps_setError _ vm h
  · rw [run_bind_of (setStackAt_run (by omega) (by omega) v vm)]
    refine ⟨_, _, rfl, ?_⟩
    exact (h.withSp (show vm.sp + 1 ≤ metalStackSize by omega)).withData _ _ _ _ _ _

theorem pop_run (h : Inv vm) : pop vm = some (if vm.sp = 0 then mvNil else vm.stack (vm.sp - 1),
    { vm with sp := vm.sp - 1 }) := by
  have hsp := h.sp
  unfold pop
  rw [run_get_bind, run_ite]
  split_ifs with hempty
  · rw [run_pure, show vm.sp - 1 = vm.sp by omega]
  · rw [run_bind_of (stackAt_run (by omega) (by omega) vm)]
    have hindex : ((vm.sp : ℤ) - 1).toNat = vm.sp - 1 := by omega
    rw [hindex]
    rfl

theorem keeps_pop : Keeps Inv pop :=
  fun _ h => ⟨_, _, pop_run h, h.withSp (le_trans (Nat.sub_le _ _) h.sp)⟩

theorem keeps_dropStack (n : ℕ) : Keeps Inv (dropStack n) :=
  .modify fun _ h => h.withSp (le_trans (Nat.sub_le _ _) h.sp)

theorem keeps_stringAt (idx : ℤ) : Keeps Inv (stringAt idx) := Keeps.get.bind fun _ => .pure _

theorem keeps_internWith (f : Bytes → ℤ × Bytes) : Keeps Inv (internWith f) :=
  Keeps.get.bind fun _ => (Keeps.modify fun _ h => h.withData _ _ _ _ _ _).bind fun _ => .pure _

theorem keeps_mvStr (s : Bytes) : Keeps Inv (mvStr s) := keeps_internWith _

theorem keeps_newArray : Keeps Inv newArray :=
  Keeps.get.bind fun _ => (Keeps.modify fun _ h => h.withData _ _ _ _ _ _).bind fun _ => .pure _

theorem keeps_newDict : Keeps Inv newDict :=
  Keeps.get.bind fun _ => (Keeps.modify fun _ h => h.withData _ _ _ _ _ _).bind fun _ => .pure _

theorem keeps_onHeap (f : MetalHeap → MetalHeap) : Keeps Inv (onHeap f) :=
  .modify fun _ h => h.withData _ _ _ _ _ _

variable {d : ℕ}

theorem keeps_scopeAt (hd : d < metalEnvDepth) : Keeps Inv (scopeAt d) :=
  Keeps.bind (Spec.require fun _ _ => hd) fun _ => Keeps.get.bind fun _ => .pure _

theorem keeps_setScopeAt (hd : d < metalEnvDepth) (vars : List MetalVar) :
    Keeps Inv (setScopeAt d vars) :=
  Keeps.bind (Spec.require fun _ _ => hd) fun _ => .modify fun _ h => h.withData _ _ _ _ _ _

theorem scopeAt_run (hd : d < metalEnvDepth) (vm : MetalVM) :
    scopeAt d vm = some (vm.scopes d, vm) := by
  unfold scopeAt
  rw [run_bind_of (run_require (p := fun _ => d < metalEnvDepth) hd)]
  rfl

theorem setScopeAt_run (hd : d < metalEnvDepth) (vars : List MetalVar) (vm : MetalVM) :
    setScopeAt d vars vm = some ((), { vm with scopes := Function.update vm.scopes d vars }) := by
  unfold setScopeAt
  rw [run_bind_of (run_require (p := fun _ => d < metalEnvDepth) hd)]
  rfl

theorem frameAt_run {i : ℕ} (hi : i < metalCallStack) (vm : MetalVM) :
    frameAt i vm = some (vm.callStack i, vm) := by
  unfold frameAt
  rw [run_bind_of (run_require (p := fun _ => i < metalCallStack) hi)]
  rfl

theorem setFrameAt_run {i : ℕ} (hi : i < metalCallStack) (f : MetalFrame) (vm : MetalVM) :
    setFrameAt i f vm = some ((), { vm with callStack := Function.update vm.callStack i f }) := by
  unfold setFrameAt
  rw [run_bind_of (run_require (p := fun _ => i < metalCallStack) hi)]
  rfl

theorem scopeDefine_run (h : vm.scopeDepth < metalEnvDepth) (hash : UInt32) (idx : ℤ)
    (v : MetalValue) :
    ∃ scopes, scopeDefine hash idx v vm = some ((), { vm with scopes := scopes }) := by
  unfold scopeDefine
  rw [run_get_bind, run_bind_of (scopeAt_run h vm), run_ite, run_ite]
  split_ifs
  · exact ⟨_, setScopeAt_run h _ vm⟩
  · exact ⟨vm.scopes, rfl⟩
  · exact ⟨_, setScopeAt_run h _ vm⟩

theorem keeps_scopeDefine (hash : UInt32) (idx : ℤ) (v : MetalValue) :
    Keeps Inv (scopeDefine hash idx v) := by
  intro vm h
  obtain ⟨scopes, hrun⟩ := scopeDefine_run h.scopeDepth hash idx v
  exact ⟨_, _, hrun, h.withData _ _ _ _ _ _⟩

theorem scopeLookup_spec (hash : UInt32) (hd : d < metalEnvDepth) :
    Spec Inv (scopeLookup hash d) fun r vm => Inv vm ∧ ∀ x ∈ r, x.1 < metalEnvDepth := by
  induction d with
  | zero =>
    refine Spec.bind (keeps_scopeAt hd) fun vars => Spec.pure fun vm h => ⟨h, ?_⟩
    intro x hx
    obtain ⟨y, -, rfl⟩ := Option.map_eq_some_iff.mp hx
    exact hd
  | succ d ih =>
    refine Spec.bind (keeps_scopeAt hd) fun vars => ?_
    cases vars.find? (·.nameHash = hash) with
    | some y =>
      refine Spec.pure fun vm h => ⟨h, ?_⟩
      rintro x ⟨⟩
      exact hd
    | none => exact ih (by omega)

theorem keeps_scopeAssign (hash : UInt32) (v : MetalValue) : Keeps Inv (scopeAssign hash v) := by
  refine Spec.get fun vm h => ?_
  refine Spec.mono (Spec.bind (scopeLookup_spec hash h.scopeDepth) fun r => ?_)
    (fun _ hs => hs ▸ h) (fun _ _ hs => hs)
  cases r with
  | none => exact Spec.mono (keeps_scopeDefine hash (-1) v) (fun _ hs => hs.1) fun _ _ hs => hs
  | some x =>
    intro s hs
    have hx := hs.2 x rfl
    exact Keeps.bind (keeps_scopeAt hx) (fun vars => keeps_setScopeAt hx _) s hs.1

end MetalVM
end SageOS
