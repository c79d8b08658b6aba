import SageOS.Ending
import SageOS.MetalLoadedRun

/-!
# Calls into the bytecode machine

`metal_vm_call` looks a function up, pushes it with its arguments, enters it as the call
instruction does and steps until its frame is gone or the machine stops. When an error stopped it,
only the halt flag is put back. The error stays, so no later call executes an instruction.
-/
namespace SageOS.MetalVM
open Option
open Checked

def metalVmLookup (name : Bytes) : Run MetalValue := do
  match ← scopeLookup (metalFnv1a name) (← get).scopeDepth with
  | some (_, v) => return v
  | none => return mvNil

/-- `vm->functions[fn_idx]`, whose index is not compared with anything. -/
def functionAt (i : ℤ) : Run MetalFunction := do
  require fun _ => 0 ≤ i ∧ i < metalPoolMax
  return (← get).functions i.toNat

def Running (start : ℕ) (vm : MetalVM) : Prop :=
  start < vm.frameCount ∧ vm.error = none ∧ vm.halted = false

instance (start : ℕ) : DecidablePred (Running start) := fun _ => inferInstanceAs (Decidable (_ ∧ _))

def callLoop (host : MetalHost) (start : ℕ) : ℕ → Run Unit
  | 0 => do
    if Running start (← get) then fun _ => none else return ()
  | n + 1 => do
    if Running start (← get) then
      let _ ← step host
      callLoop host start n
    else return ()

/-- The callee and its arguments are pushed and its frame is entered. A full frame array makes
`callFunction` set the error that ends the call. -/
def enterCall (callee : MetalValue) (args : List MetalValue) : Run Unit := do
  modify fun vm => { vm with halted := false }
  push callee
  args.forM push
  let fn ← functionAt callee.int
  require fun vm => args.length < vm.sp
  let _ ← callFunction args.length fn

def finishCall (host : MetalHost) (n start : ℕ) (halted : Bool) : Run MetalValue := do
  callLoop host start n
  modify fun vm => { vm with halted := halted }
  if (← get).error.isSome then return mvNil else pop

def metalVmCall (host : MetalHost) (n : ℕ) (name : Bytes) (args : List MetalValue) :
    Run MetalValue := do
  let callee ← metalVmLookup name
  if callee.type = .fn then
    let vm ← get
    enterCall callee args
    finishCall host n vm.frameCount vm.halted
  else return mvNil

structure SameRegisters (vm vm' : MetalVM) : Prop where
  error : vm'.error = vm.error
  frameCount : vm'.frameCount = vm.frameCount
  scopeDepth : vm'.scopeDepth = vm.scopeDepth
  sp : vm'.sp = vm.sp
  ip : vm'.ip = vm.ip
  code : vm'.code = vm.code
  constants : vm'.constants = vm.constants

def runCalls (host : MetalHost) : List (ℕ × Bytes × List MetalValue) → Run (List MetalValue)
  | [] => return []
  | c :: cs => do
    let v ← metalVmCall host c.1 c.2.1 c.2.2
    return v :: (← runCalls host cs)

def Failed (vm : MetalVM) : Prop := vm.error.isSome = true

abbrev KeepsError {α : Type} (m : Run α) : Prop := Ends Failed m fun _ => Failed

variable {α γ : Type} {host : MetalHost} {g : MetalVM → γ}

theorem keepsError_of_fixes {m : Run α} (h : Fixes MetalVM.error m) : KeepsError m := by
  intro s hs a s' hm
  unfold Failed
  rw [h s a s' hm]
  exact hs

theorem keepsError_bind {β : Type} {m : Run α} {f : α → Run β} (hm : KeepsError m)
    (hf : ∀ a, KeepsError (f a)) : KeepsError (m >>= f) := Ends.bind hm hf

theorem keepsError_modify {f : MetalVM → MetalVM} (h : ∀ vm, (f vm).error = vm.error) :
    KeepsError (modify f : Run Unit) :=
  keepsError_of_fixes (.modify h)

theorem keepsError_setError (msg : String) : KeepsError (setError msg) :=
  Ends.modify fun _ _ => rfl

theorem fixes_stackAt (i : ℤ) : Fixes g (stackAt i) :=
  Fixes.require.bind fun _ => Fixes.get.bind fun _ => .pure _

theorem fixes_scopeAt (i : ℕ) : Fixes g (scopeAt i) :=
  Fixes.require.bind fun _ => Fixes.get.bind fun _ => .pure _

theorem fixes_pop : Fixes (fun vm => (vm.halted, vm.error)) pop :=
  Fixes.get.bind fun _ => .ite (.pure _)
    ((fixes_stackAt _).bind fun _ => Fixes.bind (.modify fun _ => rfl) fun _ => .pure _)

theorem fixes_setFrameAt (i : ℕ) (f : MetalFrame) : Fixes MetalVM.error (setFrameAt i f) :=
  Fixes.require.bind fun _ => .modify fun _ => rfl

theorem fixes_scopeLookup (hash : UInt32) (d : ℕ) : Fixes g (scopeLookup hash d) := by
  induction d with
  | zero => exact (fixes_scopeAt 0).bind fun _ => .pure _
  | succ d ih =>
    apply (fixes_scopeAt (d + 1)).bind
    intro vars
    cases vars.find? (·.nameHash = hash) with
    | some x => exact .pure _
    | none => exact ih

theorem fixes_metalVmLookup (name : Bytes) : Fixes g (metalVmLookup name) := by
  apply Fixes.get.bind
  intro vm
  apply (fixes_scopeLookup _ _).bind
  intro r
  cases r with
  | some x => exact .pure _
  | none => exact .pure _

theorem fixes_functionAt (i : ℤ) : Fixes g (functionAt i) :=
  Fixes.require.bind fun _ => Fixes.get.bind fun _ => .pure _

section
variable (hg : ∀ vm depth scopes, g { vm with scopeDepth := depth, scopes := scopes } = g vm)

include hg

theorem fixes_setScopeAt (i : ℕ) (vars : List MetalVar) : Fixes g (setScopeAt i vars) :=
  Fixes.require.bind fun _ => .modify fun vm => hg vm vm.scopeDepth _

theorem fixes_scopeDefine (hash : UInt32) (idx : ℤ) (v : MetalValue) :
    Fixes g (scopeDefine hash idx v) :=
  Fixes.get.bind fun _ => (fixes_scopeAt _).bind fun _ =>
    .ite (fixes_setScopeAt hg _ _) (.ite (.pure _) (fixes_setScopeAt hg _ _))

theorem fixes_enterScope : Fixes g enterScope :=
  Fixes.get.bind fun _ =>
    .ite (Fixes.bind (.modify fun vm => hg vm _ vm.scopes) fun _ => fixes_setScopeAt hg _ _)
      (.pure _)

end

theorem keepsError_bindParams (argc : ℕ) (params : List (UInt32 × ℕ)) :
    KeepsError (bindParams argc params) :=
  Ends.forM fun _ _ => keepsError_of_fixes <| Fixes.get.bind fun _ =>
    .ite ((fixes_stackAt _).bind fun _ => fixes_scopeDefine (fun _ _ _ => rfl) _ _ _)
      (fixes_scopeDefine (fun _ _ _ => rfl) _ _ _)

theorem keepsError_get {f : MetalVM → Run α} (h : ∀ vm, KeepsError (f vm)) :
    KeepsError (MonadState.get >>= f) :=
  Ends.get fun s hs => (h s).mono (fun _ he => he ▸ hs) fun _ _ he => he

theorem keepsError_setStackAt (i : ℤ) (v : MetalValue) : KeepsError (setStackAt i v) :=
  keepsError_of_fixes (Fixes.require.bind fun _ => .modify fun _ => rfl)

theorem keepsError_push (v : MetalValue) : KeepsError (push v) := by
  apply keepsError_get
  intro vm
  apply Ends.ite
  · intro _
    exact keepsError_setError _
  · intro _
    exact keepsError_bind (keepsError_setStackAt _ _) fun _ => keepsError_modify fun _ => rfl

theorem keepsError_callFunction (argc : ℕ) (fn : MetalFunction) :
    KeepsError (callFunction argc fn) := by
  apply keepsError_get
  intro vm
  apply Ends.ite
  · intro _
    exact keepsError_bind (keepsError_setError _) fun _ => .pure fun _ h => h
  · intro _
    refine keepsError_bind ?_ fun _ => .pure fun _ h => h
    refine keepsError_bind (keepsError_of_fixes (fixes_setFrameAt _ _)) fun _ => ?_
    refine keepsError_bind (keepsError_modify fun _ => rfl) fun _ => ?_
    refine keepsError_bind (keepsError_of_fixes (fixes_enterScope fun _ _ _ => rfl)) fun _ => ?_
    exact keepsError_bind (keepsError_bindParams _ _) fun _ => keepsError_modify fun _ => rfl

variable {vm : MetalVM}

theorem callLoop_of_failed (h : vm.Failed) (start n : ℕ) :
    callLoop host start n vm = some ((), vm) := by
  have hstop : ¬ Running start vm := by
    intro hrun
    simp [Failed, hrun.2.1] at h
  cases n with
  | zero => exact (run_get_bind _ vm).trans (by rw [if_neg hstop]; rfl)
  | succ n => exact (run_get_bind _ vm).trans (by rw [if_neg hstop]; rfl)

theorem keepsError_enterCall (callee : MetalValue) (args : List MetalValue) :
    KeepsError (enterCall callee args) := by
  refine keepsError_bind (keepsError_modify fun _ => rfl) fun _ => ?_
  refine keepsError_bind (keepsError_push _) fun _ => ?_
  refine keepsError_bind (.forM fun v _ => keepsError_push v) fun _ => ?_
  refine keepsError_bind (keepsError_of_fixes (fixes_functionAt _)) fun _ => ?_
  refine keepsError_bind (keepsError_of_fixes Fixes.require) fun _ => ?_
  exact keepsError_bind (keepsError_callFunction _ _) fun _ => .pure fun _ h => h

theorem finishCall_of_failed (h : vm.Failed) (n start : ℕ) (halted : Bool) :
    finishCall host n start halted vm = some (mvNil, { vm with halted := halted }) := by
  unfold finishCall
  rw [run_bind_of (callLoop_of_failed h start n), run_modify_bind, run_get_bind]
  exact congrFun (if_pos h) _

/-- After an error a call executes nothing: neither the machine's natives nor the number of steps
it is given matter. -/
theorem metalVmCall_congr_of_failed (h : vm.Failed) (host host' : MetalHost)
    (n n' : ℕ) (name : Bytes) (args : List MetalValue) :
    metalVmCall host n name args vm = metalVmCall host' n' name args vm := by
  refine (keepsError_of_fixes (fixes_metalVmLookup name)).bind_congr ?_ h
  intro callee s hs
  rw [run_ite, run_ite, run_get_bind, run_get_bind]
  congr 1
  refine (keepsError_enterCall callee args).bind_congr ?_ hs
  intro _ s' hs'
  rw [finishCall_of_failed hs', finishCall_of_failed hs']

theorem metalVmCall_of_failed (n : ℕ) (name : Bytes) (args : List MetalValue) :
    Ends Failed (metalVmCall host n name args) fun v s => v = mvNil ∧ s.Failed := by
  refine .bind (keepsError_of_fixes (fixes_metalVmLookup name)) fun callee => ?_
  apply Ends.ite
  · intro _
    apply Ends.get
    intro s hs
    have henter : Ends (· = s) (enterCall callee args) fun _ => Failed :=
      (keepsError_enterCall callee args).mono (fun _ he => he ▸ hs) fun _ _ he => he
    refine .bind henter ?_
    intro _ s' hs' v s'' hfin
    rw [finishCall_of_failed hs'] at hfin
    cases hfin
    exact ⟨rfl, hs'⟩
  · intro _
    exact .pure fun _ h => ⟨rfl, h⟩

theorem runCalls_of_failed (calls : List (ℕ × Bytes × List MetalValue)) :
    Ends Failed (runCalls host calls) fun vs s => (∀ v ∈ vs, v = mvNil) ∧ s.Failed := by
  induction calls with
  | nil => exact .pure fun _ h => ⟨fun v hv => absurd hv List.not_mem_nil, h⟩
  | cons c cs ih =>
    refine .bind (metalVmCall_of_failed c.1 c.2.1 c.2.2) ?_
    intro v s hs vs s' hrun
    obtain ⟨us, s₁, hus, hend⟩ := exists_of_run_bind hrun
    cases hend
    obtain ⟨hnil, hfail⟩ := ih s hs.2 us _ hus
    exact ⟨List.forall_mem_cons.mpr ⟨hs.1, hnil⟩, hfail⟩

theorem metalVmLookup_ends {P : MetalVM → Prop} (name : Bytes) :
    Ends P (metalVmLookup name) fun _ => P := by
  intro s hs v s' h
  rwa [show s' = s from fixes_metalVmLookup (g := id) name s v s' h]

theorem metalVmCall_failed (n : ℕ) (name : Bytes) (args : List MetalValue) (vm : MetalVM) :
    Ends (· = vm) (metalVmCall host n name args) fun v s =>
      s.halted = vm.halted ∧ (s.Failed → v = mvNil) := by
  refine .bind (metalVmLookup_ends name) fun callee => ?_
  apply Ends.ite
  · intro _
    apply Ends.get
    rintro s rfl
    intro s' hs' v s'' hrun
    obtain ⟨_, s₁, -, hfin⟩ := exists_of_run_bind hrun
    obtain ⟨_, s₂, -, hfin⟩ := exists_of_run_bind hfin
    rw [run_modify_bind, run_get_bind, run_ite] at hfin
    split_ifs at hfin with herr
    · cases hfin
      exact ⟨rfl, fun _ => rfl⟩
    · have hpop := fixes_pop _ v s'' hfin
      obtain ⟨hhalt, herr'⟩ := Prod.mk.inj hpop
      refine ⟨hhalt, fun hfail => absurd ?_ herr⟩
      rw [← herr']
      exact hfail
  · intro _
    exact .pure fun _ h => ⟨by rw [h], fun _ => rfl⟩

/-- A call of a sound machine that ends in an error puts back the halt flag only. The error stays,
so the registers are not as before, and every later call returns nil without executing an
instruction. -/
theorem failed_call_poisons (host : MetalHost) (vm vm' : MetalVM) (n : ℕ) (name : Bytes)
    (args : List MetalValue) (v : MetalValue) (hsound : vm.error = none)
    (hcall : metalVmCall host n name args vm = some (v, vm')) (hfail : vm'.error.isSome = true) :
    v = mvNil ∧ vm'.halted = vm.halted ∧ ¬ SameRegisters vm vm' ∧
    (∀ host' n₁ n₂ name' args',
      metalVmCall host' n₁ name' args' vm' = metalVmCall host n₂ name' args' vm') ∧
    ∀ host' calls vs vm'', runCalls host' calls vm' = some (vs, vm'') →
      (∀ u ∈ vs, u = mvNil) ∧ vm''.error.isSome = true := by
  obtain ⟨hhalt, hnil⟩ := metalVmCall_failed n name args vm vm rfl v vm' hcall
  refine ⟨hnil hfail, hhalt, ?_, ?_, ?_⟩
  · intro hsame
    rw [hsame.error, hsound] at hfail
    cases hfail
  · intro host' n₁ n₂ name' args'
    exact metalVmCall_congr_of_failed hfail host' host n₁ n₂ name' args'
  · intro host' calls vs vm'' hrun
    exact runCalls_of_failed calls vm' hfail vs vm'' hrun

/-- Two procedures: `f` raises an exception and `g` returns true. -/
def twoProcsFile : SgvmFile :=
  ⟨bytes "SGVM" ++ [2, 2, 0, 2, 1, 0, 102, 2, 1, 0, 103, 11, 0, 0, 0, 8, 0, 0, 0, 0, 8, 0, 1, 0, 1,
    0xFF, 2, 0, 0, 0, 0, 0, 1, 0, 0, 0, 57, 0, 0, 0, 0, 2, 0, 0, 0, 2, 43],
    by change 51 < 2 ^ 31; decide⟩

/-- The machine that has loaded the two procedures and run the main program. -/
def twoProcs : Option MetalVM :=
  (metalVmLoadBinary twoProcsFile metalVmInit).bind fun r => runSteps idleHost 3 r.2

theorem twoProcs_calls : ∃ vm v vm', twoProcs = some vm ∧ vm.error = none ∧
    (metalVmCall idleHost 9 (bytes "g") [] vm).map (·.1) = some (mvBool true) ∧
    metalVmCall idleHost 9 (bytes "f") [] vm = some (v, vm') ∧ vm'.error.isSome = true ∧
    vm'.frameCount = vm.frameCount + 1 ∧
    (metalVmCall idleHost 9 (bytes "g") [] vm').map (·.1) = some mvNil := by
  have h : (twoProcs.bind fun vm => (metalVmCall idleHost 9 (bytes "f") [] vm).map fun r =>
      (vm.error.isNone && r.2.error.isSome && (r.2.frameCount == vm.frameCount + 1),
        (metalVmCall idleHost 9 (bytes "g") [] vm).map (·.1),
        (metalVmCall idleHost 9 (bytes "g") [] r.2).map (·.1))) =
      some (true, some (mvBool true), some mvNil) := by
    decide +kernel
  obtain ⟨vm, hvm, hrest⟩ := bind_eq_some_iff.mp h
  obtain ⟨⟨v, vm'⟩, hcall, heq⟩ := map_eq_some_iff.mp hrest
  simp only [Prod.mk.injEq, Bool.and_eq_true, isNone_iff_eq_none, beq_iff_eq] at heq
  obtain ⟨⟨⟨herr, hfail⟩, hframes⟩, hg, hg'⟩ := heq
  exact ⟨vm, v, vm', hvm, herr, hg, hcall, hfail, hframes, hg'⟩

theorem exception_poisons_calls : ∃ vm v vm', twoProcs = some vm ∧ vm.error = none ∧
    metalVmCall idleHost 9 (bytes "f") [] vm = some (v, vm') ∧ vm'.error.isSome = true ∧
    ¬ SameRegisters vm vm' ∧
    (metalVmCall idleHost 9 (bytes "g") [] vm).map (·.1) = some (mvBool true) ∧
    (metalVmCall idleHost 9 (bytes "g") [] vm').map (·.1) = some mvNil := by
  obtain ⟨vm, v, vm', hvm, herr, hg, hcall, hfail, hframes, hg'⟩ := twoProcs_calls
  refine ⟨vm, v, vm', hvm, herr, hcall, hfail, ?_, hg, hg'⟩
  intro hsame
  have := hsame.frameCount
  omega

theorem twoProcs_poisoned : ∃ vm v vm', vm.error = none ∧
    metalVmCall idleHost 9 (bytes "f") [] vm = some (v, vm') ∧ vm'.error.isSome = true ∧
    ∀ calls vs vm'', runCalls idleHost calls vm' = some (vs, vm'') → ∀ u ∈ vs, u = mvNil := by
  obtain ⟨vm, v, vm', hvm, herr, hg, hcall, hfail, hframes, hg'⟩ := twoProcs_calls
  refine ⟨vm, v, vm', herr, hcall, hfail, fun calls vs vm'' hrun => ?_⟩
  have hall := failed_call_poisons idleHost vm vm' 9 (bytes "f") [] v herr hcall hfail
  exact (hall.2.2.2.2 idleHost calls vs vm'' hrun).1

end SageOS.MetalVM
