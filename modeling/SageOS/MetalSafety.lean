import SageOS.MetalInvariant

/-!
# Bounds safety of the instructions

Most instructions keep the bounds invariant whatever their operands are. Here is one lemma for each
of them; the instructions that use an operand as it is are in `MetalOperands`.
-/
namespace SageOS.MetalVM
open Checked
variable {host : MetalHost} {vm : MetalVM}

theorem keeps_opConstant : Keeps Inv opConstant := by
  refine keeps_readU16.bind fun idx => keeps_unlessError (Spec.get fun vm h => ?_)
  refine Spec.ite (fun hidx => ?_) fun _ => ?_
  · rintro s rfl
    unfold goOn
    simp only [bind_assoc]
    rw [run_bind_of (constAt_run hidx)]
    exact keeps_goOn (keeps_push _) s h
  · exact Spec.mono (keeps_fail _) (fun _ hs => hs ▸ h) fun _ _ hs => hs

theorem keeps_opDup : Keeps Inv opDup := by
  refine Spec.get fun vm h => Spec.ite (fun _ => ?_) fun hsp => ?_
  · exact Spec.mono (keeps_fail _) (fun _ hs => hs ▸ h) fun _ _ hs => hs
  · rintro s rfl
    have hlt := h.sp
    unfold goOn
    simp only [bind_assoc]
    rw [run_bind_of (stackAt_run (by omega) (by omega) s)]
    exact keeps_goOn (keeps_push _) s h

theorem keeps_binary (f : MetalValue → MetalValue → MetalValue) : Keeps Inv (binary f) :=
  keeps_goOn (keeps_pop.bind fun _ => keeps_pop.bind fun _ => keeps_push _)

theorem keeps_unary (f : MetalValue → MetalValue) : Keeps Inv (unary f) :=
  keeps_goOn (keeps_pop.bind fun _ => keeps_push _)

theorem keeps_opAdd : Keeps Inv (opAdd host) :=
  keeps_goOn (keeps_pop.bind fun _ => keeps_pop.bind fun _ =>
    .ite ((keeps_internWith _).bind fun _ => keeps_push _) (keeps_push _))

theorem keeps_divideWith (f : UInt64 → UInt64 → UInt64) (msg : String) :
    Keeps Inv (divideWith host f msg) :=
  keeps_pop.bind fun _ => keeps_pop.bind fun _ =>
    .ite (keeps_fail msg) (keeps_goOn (keeps_push _))

theorem keeps_jumpTo (target : ℕ) : Keeps Inv (jumpTo target) :=
  .modify fun _ h => h.withIp (Int.natCast_nonneg target)

theorem keeps_opJump : Keeps Inv opJump :=
  keeps_goOn (keeps_readU16.bind fun target => keeps_jumpTo target)

theorem keeps_opJumpIfFalse : Keeps Inv (opJumpIfFalse host) :=
  keeps_goOn (keeps_readU16.bind fun off => keeps_pop.bind fun _ =>
    .ite (.pure ()) (keeps_jumpTo off))

theorem keeps_enterScope : Keeps Inv enterScope := by
  refine Spec.get fun vm h => Spec.ite (fun hd => ?_) fun _ => ?_
  · have hdepth : vm.scopeDepth + 1 < metalEnvDepth := by omega
    refine Spec.bind (Spec.modify (R := fun _ => Inv) fun s hs => ?_) fun _ =>
      keeps_setScopeAt hdepth []
    subst hs
    exact h.withScopeDepth hdepth
  · exact Spec.pure fun _ hs => hs ▸ h

theorem keeps_leaveScope : Keeps Inv leaveScope :=
  .modify fun _ h => h.withScopeDepth (lt_of_le_of_lt (Nat.sub_le _ _) h.scopeDepth)

theorem keeps_opSlice : Keeps Inv (opSlice host) := by
  refine keeps_pop.bind fun e => keeps_pop.bind fun s => keeps_pop.bind fun obj => ?_
  cases obj.type with
  | arr =>
    refine keeps_newArray.bind fun arr => ?_
    cases arr with
    | none => exact keeps_fail _
    | some i => exact Keeps.get.bind fun _ =>
      keeps_goOn ((keeps_onHeap _).bind fun _ => keeps_push _)
  | str => exact (keeps_stringAt _).bind fun _ =>
    keeps_goOn ((keeps_mvStr _).bind fun _ => keeps_push _)
  | nil | num | bool | dict | fn | ptr => exact keeps_goOn (keeps_push _)

theorem keeps_opGetProperty : Keeps Inv opGetProperty :=
  keeps_readU16.bind fun _ => keeps_unlessError (keeps_goOn (keeps_pop.bind fun _ =>
    .ite (Keeps.get.bind fun _ => keeps_push _) (keeps_push _)))

theorem keeps_opSetProperty : Keeps Inv opSetProperty :=
  keeps_readU16.bind fun _ => keeps_unlessError (keeps_goOn (keeps_pop.bind fun _ =>
    keeps_pop.bind fun _ => (keeps_onHeap _).bind fun _ => keeps_push _))

theorem keeps_opDict : Keeps Inv opDict := by
  refine keeps_readU16.bind fun count => keeps_newDict.bind fun dict => ?_
  cases dict with
  | none => exact keeps_fail _
  | some i =>
    have hentry : Keeps Inv (do
        let v ← pop
        let key ← pop
        onHeap fun h => if key.type = .str then h.metalDictSet i key.int v else h) :=
      keeps_pop.bind fun _ => keeps_pop.bind fun _ => keeps_onHeap _
    exact keeps_goOn ((Keeps.forM fun _ _ => hentry).bind fun _ => keeps_push _)

theorem keeps_opArrayLen : Keeps Inv (opArrayLen host) :=
  keeps_goOn (keeps_pop.bind fun _ => Keeps.get.bind fun _ => keeps_push _)

theorem keeps_opGetIndex : Keeps Inv (opGetIndex host) :=
  keeps_goOn (keeps_pop.bind fun _ => keeps_pop.bind fun _ => Keeps.get.bind fun _ =>
    .ite (keeps_push _) (.ite (keeps_push _) (keeps_push _)))

theorem keeps_opSetIndex : Keeps Inv (opSetIndex host) :=
  keeps_goOn (keeps_pop.bind fun _ => keeps_pop.bind fun _ => keeps_pop.bind fun _ =>
    (keeps_onHeap _).bind fun _ => keeps_push _)

theorem keeps_opReturn : Keeps Inv opReturn := by
  refine keeps_pop.bind fun res => Spec.get fun vm h => Spec.ite (fun hframe => ?_) fun _ => ?_
  · rintro s rfl
    obtain ⟨u, s₁, hleave, h₁⟩ := keeps_leaveScope s h
    have hcount := h.frameCount
    have hsame : s₁ = { s with scopeDepth := s.scopeDepth - 1 } := by
      cases hleave
      rfl
    have hin := h₁.frames (s.frameCount - 1) (by rw [hsame]; dsimp only; omega)
    unfold goOn
    simp only [bind_assoc]
    rw [run_bind_of hleave, run_bind_of (frameAt_run (by omega) s₁), run_modify_bind]
    refine keeps_goOn (keeps_push res) _ ?_
    have hfc : s₁.frameCount = s.frameCount := by rw [hsame]
    exact ⟨hin.spBase, by dsimp only; omega, h₁.scopeDepth, hin.ip, hin.code, h₁.functions,
      fun i hi => h₁.frames i (by dsimp only at hi; omega), h₁.natives⟩
  · refine Spec.bind (Spec.modify (R := fun _ => Inv) fun s hs => ?_) fun _ => Keeps.pure false
    subst hs
    exact h.withData _ _ _ _ _ _

end SageOS.MetalVM
