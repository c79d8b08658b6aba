import SageOS.MetalOperands

/-!
# Calls, steps and runs within bounds

A call pushes a frame whose stack base lies below the arguments, so it is safe when the callee and
the arguments are on the stack. With the other instructions this gives the step lemma, and from it
the run lemma: a run makes no access out of bounds as long as every state it meets has good
operands.
-/
namespace SageOS.MetalVM
open Checked
variable {host : MetalHost} {vm : MetalVM}

theorem enterScope_run (h : Inv vm) : ∃ d scopes, d < metalEnvDepth ∧
      enterScope vm = some ((), { vm with scopeDepth := d, scopes := scopes }) := by
  have hdepth := h.scopeDepth
  unfold enterScope
  rw [run_get_bind, run_ite]
  split_ifs with hd
  · have hd' : vm.scopeDepth + 1 < metalEnvDepth := by omega
    exact ⟨_, _, hd', setScopeAt_run hd' [] _⟩
  · exact ⟨vm.scopeDepth, vm.scopes, hdepth, rfl⟩

/-- The state in which the body of a function starts. -/
def called (vm : MetalVM) (argc : ℕ) (fn : MetalFunction) : MetalVM :=
  { vm with
    callStack := Function.update vm.callStack vm.frameCount
      { code := vm.code, ip := vm.ip, spBase := vm.sp - argc - 1, constants := vm.constants }
    frameCount := vm.frameCount + 1
    code := fn.code
    ip := 0
    constants := fn.constants }

theorem inv_called (h : Inv vm) (argc : ℕ) {fn : MetalFunction}
    (hframe : vm.frameCount < metalCallStack) (hfn : CodeRefIn vm.image fn.code) :
    Inv (vm.called argc fn) where
  sp := h.sp
  frameCount := hframe
  scopeDepth := h.scopeDepth
  ip := le_rfl
  code := hfn
  functions := h.functions
  frames i hi := by
    have hsp := h.sp
    by_cases hnew : i = vm.frameCount
    · subst hnew
      unfold called
      dsimp only
      rw [Function.update_self]
      exact ⟨h.ip, by dsimp only; omega, h.code⟩
    · unfold called at hi ⊢
      dsimp only at hi ⊢
      rw [Function.update_of_ne hnew]
      exact h.frames i (by omega)
  natives := h.natives

theorem callFunction_spec (h : Inv vm) {argc : ℕ} {fn : MetalFunction} (hargc : argc < vm.sp)
    (hfn : CodeRefIn vm.image fn.code) : Spec (· = vm) (callFunction argc fn) fun _ => Inv := by
  rintro s rfl
  unfold callFunction
  rw [run_get_bind, run_ite]
  split_ifs with hfull
  · exact keeps_fail _ s h
  · have hframe : s.frameCount < metalCallStack := by omega
    have hcalled := inv_called h argc hframe hfn
    obtain ⟨d, scopes, hd, henter⟩ := enterScope_run hcalled
    have hentered := (hcalled.withScopeDepth hd).withData s.stack scopes s.heap s.strings s.halted
      s.error
    obtain ⟨scopes', hbind⟩ := bindParams_run fn.paramNameHashes.zipIdx hentered hargc.le
    unfold goOn
    simp only [bind_assoc]
    rw [run_bind_of (setFrameAt_run hframe _ s), run_modify_bind]
    refine ⟨_, _, (run_bind_of henter _).trans ((run_bind_of hbind _).trans rfl), ?_⟩
    have hsp := h.sp
    exact (hentered.withData s.stack scopes' s.heap s.strings s.halted s.error).withSp (by omega)

theorem readU8_spec (h : Inv vm) : Spec (· = vm) readU8 fun a s =>
    Inv s ∧ a = vm.operandU8 ∧ s.sp = vm.sp := by
  rintro s rfl
  obtain ⟨a, s', hrun, hinv⟩ := keeps_readU8 s h
  refine ⟨a, s', hrun, hinv, ?_⟩
  rw [readU8_run h] at hrun
  cases hrun
  refine ⟨rfl, ?_⟩
  split_ifs <;> rfl

theorem opCall_spec (h : Inv vm) (hok : vm.OperandsOk .call) :
    Spec (· = vm) (opCall host) fun _ => Inv := by
  refine Spec.bind (readU8_spec h) fun argc => Spec.get fun s hs => ?_
  obtain ⟨hinv, rfl, hsp⟩ := hs
  rintro s rfl
  have hargc : vm.operandU8 < s.sp := by
    rw [hsp]
    exact hok
  have hle := hinv.sp
  rw [run_bind_of (stackAt_run (by omega) (by omega) s)]
  cases (s.stack ((s.sp : ℤ) - vm.operandU8 - 1).toNat).type with
  | str =>
    dsimp only
    rw [hinv.natives, List.find?_nil]
    exact keeps_fail _ s hinv
  | fn =>
    split_ifs with hfn
    · exact callFunction_spec hinv hargc (hinv.functions _ (by omega)) s rfl
    · exact keeps_fail _ s hinv
  | nil | num | bool | arr | dict | ptr => exact keeps_fail _ s hinv

theorem keeps_finishMethod (argc : ℕ) (v : MetalValue) : Keeps Inv (finishMethod argc v) :=
  keeps_goOn ((keeps_dropStack _).bind fun _ => keeps_push v)

theorem arrayMethod_spec (argc : ℕ) (method : Bytes) (receiver : MetalValue) :
    Spec (fun s => Inv s ∧ 0 < s.sp) (arrayMethod host argc method receiver) fun _ => Inv := by
  rintro s ⟨h, hpos⟩
  have hsp := h.sp
  unfold arrayMethod
  rw [run_get_bind, run_ite, run_ite]
  split_ifs
  · rw [run_bind_of (stackAt_run (by omega) (by omega) s)]
    exact Keeps.bind (keeps_onHeap _) (fun _ => keeps_finishMethod argc _) s h
  · exact keeps_finishMethod argc _ s h
  · exact keeps_fail _ s h

theorem affixMethod_spec (argc : ℕ) (starts : Bool) (str : Bytes) :
    Spec (fun s => Inv s ∧ 0 < s.sp) (affixMethod argc starts str) fun _ => Inv := by
  rintro s ⟨h, hpos⟩
  have hsp := h.sp
  unfold affixMethod
  rw [run_get_bind, run_bind_of (stackAt_run (by omega) (by omega) s)]
  exact keeps_finishMethod argc _ s h

theorem keeps_pushTokens (arr : ℕ) (tokens : List Bytes) : Keeps Inv (pushTokens arr tokens) :=
  Keeps.forM fun _ _ => (keeps_mvStr _).bind fun _ => keeps_onHeap _

theorem stringMethod_spec (argc : ℕ) (method : Bytes) (receiver : MetalValue) :
    Spec (fun s => Inv s ∧ 0 < s.sp) (stringMethod argc method receiver) fun _ => Inv := by
  rintro s ⟨h, hpos⟩
  have hstr : stringAt receiver.int s = some (metalStringGet s.strings receiver.int, s) := rfl
  unfold stringMethod
  rw [run_bind_of hstr, run_ite, run_ite, run_ite, run_ite]
  split_ifs
  · refine Keeps.bind keeps_newArray (fun arr => ?_) s h
    cases arr with
    | none => exact keeps_fail _
    | some i => exact (keeps_pushTokens i _).bind fun _ => keeps_finishMethod argc _
  · exact Keeps.bind (keeps_internWith _) (fun _ => keeps_finishMethod argc _) s h
  · exact affixMethod_spec argc true _ s ⟨h, hpos⟩
  · exact affixMethod_spec argc false _ s ⟨h, hpos⟩
  · exact keeps_fail _ s h

theorem opCallMethod_spec (h : Inv vm) (hok : vm.OperandsOk .callMethod) :
    Spec (· = vm) (opCallMethod host) fun _ => Inv := by
  refine Spec.bind (readU8_spec h) fun argc => ?_
  rintro s ⟨hinv, rfl, hsp⟩
  obtain ⟨nameIdx, s₁, hread, h₁⟩ := keeps_readU16 s hinv
  have hargc : vm.operandU8 < s₁.sp := by
    have hlt : vm.operandU8 < s.sp := by
      rw [hsp]
      exact hok
    have hrun := (readU16_run hinv).symm.trans hread
    cases hrun
    split_ifs <;> exact hlt
  have hstr : stringAt nameIdx s₁ = some (metalStringGet s₁.strings nameIdx, s₁) := rfl
  have hle := h₁.sp
  rw [run_bind_of hread, run_bind_of hstr, run_get_bind,
    run_bind_of (stackAt_run (by omega) (by omega) s₁)]
  cases (s₁.stack ((s₁.sp : ℤ) - vm.operandU8 - 1).toNat).type with
  | arr => exact arrayMethod_spec _ _ _ s₁ ⟨h₁, by omega⟩
  | str => exact stringMethod_spec _ _ _ s₁ ⟨h₁, by omega⟩
  | nil | num | bool | dict | fn | ptr => exact keeps_fail _ s₁ h₁

theorem exec_spec (h : Inv vm) (op : OpCode) (hok : vm.OperandsOk op) :
    Spec (· = vm) (exec host op) fun _ => Inv := by
  have hkeeps {m : Run Bool} (hm : Keeps Inv m) : Spec (· = vm) m fun _ => Inv :=
    Spec.mono hm (fun _ hs => hs ▸ h) fun _ _ hs => hs
  have hpop := hkeeps (keeps_goOn (keeps_pop.bind fun _ => .pure ()))
  cases op with
  | constant => exact hkeeps keeps_opConstant
  | pushNil | pushTrue | pushFalse => exact hkeeps (keeps_goOn (keeps_push _))
  | popValue | print | inheritClass => exact hpop
  | getGlobal => exact opGetGlobal_spec h hok
  | defineGlobal => exact opDefineGlobal_spec h hok
  | setGlobal => exact opSetGlobal_spec h hok
  | defineFn => exact opDefineFn_spec h hok
  | getProperty => exact hkeeps keeps_opGetProperty
  | setProperty => exact hkeeps keeps_opSetProperty
  | getIndex => exact hkeeps keeps_opGetIndex
  | setIndex => exact hkeeps keeps_opSetIndex
  | slice => exact hkeeps keeps_opSlice
  | add => exact hkeeps keeps_opAdd
  | div | mod => exact hkeeps (keeps_divideWith _ _)
  | sub | mul | equal | notEqual | greater | greaterEq | less | lessEq | bitAnd | bitOr | bitXor
  | shiftLeft | shiftRight => exact hkeeps (keeps_binary _)
  | negate | bitNot | logicalNot | truthy => exact hkeeps (keeps_unary _)
  | jump | brk | cont => exact hkeeps keeps_opJump
  | jumpIfFalse => exact hkeeps keeps_opJumpIfFalse
  | call => exact opCall_spec h hok
  | callMethod => exact opCallMethod_spec h hok
  | array | tuple => exact opArray_spec h hok
  | dict => exact hkeeps keeps_opDict
  | execAstStmt => exact hkeeps (keeps_readU16.bind fun _ => keeps_fail _)
  | ret => exact hkeeps keeps_opReturn
  | pushEnv => exact hkeeps (keeps_goOn keeps_enterScope)
  | popEnv => exact hkeeps (keeps_goOn keeps_leaveScope)
  | dup => exact hkeeps keeps_opDup
  | arrayLen => exact hkeeps keeps_opArrayLen
  | loopBack => exact opLoopBack_spec h hok
  | importModule => exact opImport_spec h hok
  | defClass => exact hkeeps (keeps_goOn (keeps_readU16.bind fun _ => keeps_readU16.bind fun _ =>
    keeps_readU16.bind fun _ => .pure ()))
  | defMethod => exact hkeeps (keeps_goOn (keeps_readU16.bind fun _ => .pure ()))
  | setupTry => exact hkeeps (keeps_goOn (keeps_readU16.bind fun _ => keeps_readU16.bind fun _ =>
    .pure ()))
  | endTry => exact hkeeps (.pure true)
  | raise => exact hkeeps (keeps_pop.bind fun _ => keeps_fail _)
  | halt =>
    exact hkeeps (Keeps.bind (.modify fun _ h => h.withData _ _ _ _ _ _) fun _ => .pure false)

/-- The instruction that the next step executes, if any, has good operands. -/
def StepOk (vm : MetalVM) : Prop :=
  vm.halted = false → vm.error = none → vm.ip < vm.code.length →
    ∀ op, OpCode.ofByte (vm.codeByte vm.ip) = some op →
      OperandsOk { vm with ip := vm.ip + 1 } op

instance decidableStepOk (vm : MetalVM) : Decidable vm.StepOk :=
  inferInstanceAs (Decidable (_ → _ → _ → ∀ op ∈ OpCode.ofByte (vm.codeByte vm.ip),
    OperandsOk { vm with ip := vm.ip + 1 } op))

theorem step_inv (h : Inv vm) (hok : vm.StepOk) :
    ∃ b vm', step host vm = some (b, vm') ∧ Inv vm' := by
  unfold step
  rw [run_get_bind, run_ite]
  split_ifs with hstop
  · exact ⟨_, _, rfl, h⟩
  · push Not at hstop
    obtain ⟨hhalt, herr, hlen⟩ := hstop
    have hnext := h.withIp (show 0 ≤ vm.ip + 1 by have := h.ip; omega)
    have hop : vm.operandU8 = vm.codeByte vm.ip := if_neg (by omega)
    rw [run_bind_of (readU8_run h), if_neg (by omega), hop]
    refine unlessError_spec (P := (· = { vm with ip := vm.ip + 1 }))
      (fun _ hs => hs ▸ hnext) ?_ _ rfl
    rintro s ⟨rfl, -⟩
    cases hcode : OpCode.ofByte (vm.codeByte vm.ip) with
    | none => exact keeps_fail _ _ hnext
    | some op =>
      refine exec_spec hnext op (hok (by simpa using hhalt) ?_ hlen op hcode) _ rfl
      simpa using herr

def runSteps (host : MetalHost) : ℕ → MetalVM → Option MetalVM
  | 0, vm => some vm
  | n + 1, vm => (runSteps host n vm).bind fun vm' => (step host vm').map (·.2)

theorem runSteps_inv (h : Inv vm) {n : ℕ}
    (hok : ∀ m < n, ∀ vm', runSteps host m vm = some vm' → StepOk vm') :
    ∃ vm', runSteps host n vm = some vm' ∧ Inv vm' := by
  induction n with
  | zero => exact ⟨vm, rfl, h⟩
  | succ n ih =>
    obtain ⟨vm₁, hrun, h₁⟩ := ih fun m hm => hok m (by omega)
    obtain ⟨b, vm₂, hstep, h₂⟩ : ∃ b vm₂, step host vm₁ = some (b, vm₂) ∧ Inv vm₂ :=
      step_inv h₁ (hok n (by omega) vm₁ hrun)
    refine ⟨vm₂, ?_, h₂⟩
    unfold runSteps
    rw [hrun, Option.bind_some, hstep, Option.map_some]

end SageOS.MetalVM
