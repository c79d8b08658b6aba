import SageOS.CompiledCode

/-!
# Chunks of a program

Every part of the compiler writes whole instructions. A chunk of a program is therefore the
encoding of some instructions that use the chunk's own constants, followed by a return.
-/
namespace SageOS
open Checked Emit List Option
variable {J : Set Mark} {c : BytecodeCompiler} {op : OpCode}
namespace Writes

theorem bind {α β : Type} {m : Emit α} {f : α → Emit β} (hm : Writes m) (hf : ∀ a, Writes (f a)) :
    Writes (m >>= f) := fun J => .bind (hm J) fun a => hf a J

variable {α : Type}

theorem pure (a : α) : Writes (Pure.pure a : Emit α) :=
  fun _ => .pure fun _ h => h

theorem refuse : Writes (Emit.refuse : Emit α) := fun _ => Ends.stop

theorem require (p : Prop) [Decidable p] : Writes (Emit.require p) :=
  fun _ => .ite (fun _ => .pure fun _ h => h) fun _ => Ends.stop

theorem get_bind {β : Type} {f : BytecodeCompiler → Emit β} (hf : ∀ c, Writes (f c)) :
    Writes (MonadState.get >>= f) := by
  intro J
  refine .get fun c hc => ?_
  exact (hf c J).mono (fun s hs => hs ▸ hc) fun _ _ h => h

theorem ite {p : Prop} [Decidable p] {m m' : Emit α} (ht : Writes m) (hf : Writes m') :
    Writes (if p then m else m') := fun J => .ite (fun _ => ht J) fun _ => hf J

theorem ends_of_subset {m : Emit α} (hm : Writes m) {J K : Set Mark} (h : J ⊆ K) :
    Ends (Coding K) m fun _ => Coding J :=
  (hm K).mono (fun _ hc => hc) fun _ _ hc => hc.mono h

end Writes

theorem writes_emitOp (hop : (op.layout, op.operandBytes) = (some .plain, 0)) :
    Writes (emitOp op) := by
  intro J c hc _ c' hm
  cases hm
  obtain ⟨hlayout, hbytes⟩ := Prod.mk.inj hop
  exact hc.append (i := .plain op []) ⟨hlayout, hbytes.symm⟩ nofun

/-- An instruction that refers to a new constant. -/
theorem writes_pooled {p : ℕ → Prop} [DecidablePred p] {m : ℕ → Emit Unit} (i : ℕ → Instr)
    (v : BytecodeConst) (hm : ∀ n c, m n c = some ((), c.append (i n).encode))
    (hfits : ∀ n pool, p n → n < pool → (i n).Fits pool) (htarget : ∀ n, (i n).target = none) :
    Writes (do let index ← addConstant v; Emit.require (p index); m index) := by
  intro J c hc _ c' hrun
  change (do Emit.require (p c.chunk.constants.length)
             m c.chunk.constants.length : Emit Unit) (c.withConst v) = _ at hrun
  rw [require_bind_eq] at hrun
  split_ifs at hrun with hp
  rw [hm] at hrun
  cases hrun
  have hlt : c.chunk.constants.length < (c.withConst v).chunk.constants.length := by
    unfold BytecodeCompiler.withConst
    rw [length_append]
    exact Nat.lt_succ_self _
  exact (hc.withConst v).append (hfits _ _ hp hlt) (by simp [htarget])

theorem writes_emitNameOp (hop : (op.layout, op.operandBytes) = (some .index, 2)) (name : Bytes) :
    Writes (emitNameOp op name) := by
  obtain ⟨hlayout, hbytes⟩ := Prod.mk.inj hop
  exact writes_pooled (.index op · []) _ (fun n c => emitCount_eq c op n)
    (fun _ _ hn hlt => ⟨hlayout, hbytes.symm, hlt, by omega⟩) fun _ => rfl

theorem writes_emitConstant (v : BytecodeConst) : Writes (emitConstant v) :=
  writes_pooled (.index .constant · []) v (fun n c => emitCount_eq c .constant n)
    (fun _ _ hn hlt => ⟨rfl, rfl, hlt, by omega⟩) fun _ => rfl

theorem writes_emitDefineFunction (name : Bytes) (n : ℕ) :
    Writes (emitDefineFunction name n) := by
  refine writes_pooled (p := fun index => index ≤ 0xffff ∧ n ≤ 0xffff)
    (.index .defineFn · (u16 n)) _ (fun index c => ?_)
    (fun _ _ hn hlt => ⟨rfl, rfl, hlt, by omega⟩) fun _ => rfl
  change (do emitCount .defineFn index; emitU16 n : Emit Unit) c = _
  rw [run_bind_of (emitCount_eq _ _ _), emitU16_eq, BytecodeCompiler.append_append]
  rfl

theorem writes_emitCallMethod (name : Bytes) (n : ℕ) : Writes (emitCallMethod name n) := by
  refine writes_pooled (p := fun index => index ≤ 0xffff ∧ n ≤ 0xff)
    (.index .callMethod · [UInt8.ofNat n]) _ (fun index c => ?_)
    (fun _ _ hn hlt => ⟨rfl, rfl, hlt, by omega⟩) fun _ => rfl
  change (do emitCount .callMethod index; emitU8 n : Emit Unit) c = _
  rw [run_bind_of (emitCount_eq _ _ _)]
  exact congrArg (fun c => some ((), c)) (c.append_append _ [UInt8.ofNat n])

theorem writes_emitCall (n : ℕ) : Writes (emitCall n) := by
  intro J c hc _ c' hm
  unfold emitCall at hm
  rw [require_bind_eq] at hm
  split_ifs at hm with hle
  rw [emitSmall_eq] at hm
  cases hm
  exact hc.append (i := .plain .call [UInt8.ofNat n]) ⟨rfl, rfl⟩ nofun

theorem writes_emitCount (hop : (op.layout, op.operandBytes) = (some .plain, 2)) (n : ℕ) :
    Writes (emitCount op n) := by
  intro J c hc _ c' hm
  rw [emitCount_eq] at hm
  cases hm
  obtain ⟨hlayout, hbytes⟩ := Prod.mk.inj hop
  exact hc.append (i := .plain op (u16 n)) ⟨hlayout, hbytes.symm⟩ nofun

theorem ends_emitJumpTo (hop : op.layout = some .jump) {t : ℕ} (ht : .reached t ∈ J) :
    Ends (Coding J) (emitJumpTo op t) fun _ => Coding J := by
  intro c hc _ c' hm
  rw [emitJumpTo_eq, ← u16_mod] at hm
  cases hm
  refine hc.append (i := .jump op (t % 65536)) ⟨hop, Nat.mod_lt _ (by omega)⟩ ?_
  rintro u ⟨⟩
  exact (Nat.mod_le _ _).trans (hc.le_of_reached ht)

theorem ends_currentOffset :
    Ends (Coding J) currentOffset fun n => Coding (insert (.reached n) J) := by
  intro c hc n c' hm
  cases hm
  exact hc.reached

theorem ends_emitJump (hop : op.layout = some .jump) :
    Ends (Coding J) (emitJump op) fun p => Coding (insert (.jump p) J) := by
  intro c hc p c' hm
  rw [emitJump_eq] at hm
  cases hm
  exact hc.appendJump hop

theorem ends_patchHere {p : ℕ} (hp : .jump p ∈ J) :
    Ends (Coding J) (patchHere p) fun _ => Coding J := by
  intro c hc _ c' hm
  have hrun : patchHere p c = patchJump p c.chunk.code.length c := rfl
  have hpatch : patchJump p c.chunk.code.length c =
      (do Emit.require (p + 1 < c.chunk.code.length)
          onChunk fun chunk => { chunk with
            code := (chunk.code.set p (UInt8.ofNat (c.chunk.code.length / 256))).set (p + 1)
              (UInt8.ofNat c.chunk.code.length) } : Emit Unit) c := rfl
  rw [hrun, hpatch, require_bind_eq] at hm
  by_cases hlt : p + 1 < c.chunk.code.length
  · rw [if_pos hlt] at hm
    cases hm
    exact hc.patch hp le_rfl
  · rw [if_neg hlt] at hm
    cases hm

theorem writes_compileShortCircuit {left right : Emit Unit} (hleft : Writes left)
    (hright : Writes right) (isOr : Bool) : Writes (compileShortCircuit isOr left right) := by
  intro J
  refine .bind (hleft J) fun _ => .bind (ends_emitJump rfl) fun p => ?_
  refine .bind (writes_emitOp rfl _) fun _ => ?_
  have hweak : ∀ q, Ends (Coding (insert (.jump q) (insert (.jump p) J))) (patchHere q)
      fun _ => Coding J := fun q => (ends_patchHere (Set.mem_insert _ _)).mono (fun _ h => h)
      fun _ _ h => h.mono ((Set.subset_insert _ _).trans (Set.subset_insert _ _))
  cases isOr with
  | true =>
    refine .bind (writes_emitOp rfl _) fun _ => .bind (ends_emitJump rfl) fun q => ?_
    refine .bind (ends_patchHere (by simp)) fun _ => ?_
    exact .bind (writes_emitOp rfl _) fun _ => .bind (hright _) fun _ =>
      Ends.bind (writes_emitOp rfl _) fun _ => hweak q
  | false =>
    refine .bind (hright _) fun _ => .bind (writes_emitOp rfl _) fun _ => ?_
    refine .bind (ends_emitJump rfl) fun q => .bind (ends_patchHere (by simp)) fun _ => ?_
    exact .bind (writes_emitOp rfl _) fun _ => .bind (writes_emitOp rfl _) fun _ =>
      hweak q

theorem layout_binaryOpCode {t : TokenType} (h : binaryOpCode t = some op) :
    (op.layout, op.operandBytes) = (some .plain, 0) := by
  cases t <;> first | cases h; rfl | cases h

mutual

theorem writes_compileExpr : ∀ e : SageExpr, Writes (compileExpr e)
  | .number bits => by
    rw [compileExpr]
    exact writes_emitConstant _
  | .string value => by
    rw [compileExpr]
    exact writes_emitConstant _
  | .bool value => by
    rw [compileExpr]
    cases value with
    | true => exact writes_emitOp rfl
    | false => exact writes_emitOp rfl
  | .nil => by
    rw [compileExpr]
    exact writes_emitOp rfl
  | .var name => by
    rw [compileExpr]
    exact writes_emitNameOp rfl _
  | .array elements => by
    rw [compileExpr]
    exact (writes_compileExprs elements).bind fun _ => writes_emitCount rfl _
  | .tuple elements => by
    rw [compileExpr]
    exact (writes_compileExprs elements).bind fun _ => writes_emitCount rfl _
  | .dict entries => by
    rw [compileExpr]
    exact (writes_compileEntries entries).bind fun _ => writes_emitCount rfl _
  | .index array index => by
    rw [compileExpr]
    exact (writes_compileExpr array).bind fun _ => (writes_compileExpr index).bind fun _ =>
      writes_emitOp rfl
  | .indexSet array index value => by
    rw [compileExpr]
    exact (writes_compileExpr array).bind fun _ => (writes_compileExpr index).bind fun _ =>
      (writes_compileExpr value).bind fun _ => writes_emitOp rfl
  | .slice array start stop => by
    rw [compileExpr]
    exact (writes_compileExpr array).bind fun _ => (writes_compileOptional start).bind fun _ =>
      (writes_compileOptional stop).bind fun _ => writes_emitOp rfl
  | .get object property => by
    rw [compileExpr]
    exact (writes_compileExpr object).bind fun _ => writes_emitNameOp rfl _
  | .set none property value => by
    rw [compileExpr]
    exact (writes_compileExpr value).bind fun _ => writes_emitNameOp rfl _
  | .set (some object) property value => by
    rw [compileExpr]
    exact (writes_compileExpr object).bind fun _ => (writes_compileExpr value).bind fun _ =>
      writes_emitNameOp rfl _
  | .call callee args => by
    have hcallee := writes_compileExpr callee
    have hargs := writes_compileExprs args
    cases callee with
    | get object property =>
      rw [compileExpr]
      exact (writes_compileExpr object).bind fun _ => hargs.bind fun _ =>
        writes_emitCallMethod _ _
    | _ =>
      rw [compileExpr]
      · exact hcallee.bind fun _ => hargs.bind fun _ => writes_emitCall _
      · simp
  | .binary op left right => by
    rw [compileExpr]
    refine Writes.ite ?_ ?_
    · exact writes_compileShortCircuit (writes_compileExpr left) (writes_compileOptional right) _
    · refine (writes_compileExpr left).bind fun _ => Writes.ite (writes_emitOp rfl) ?_
      refine Writes.ite (writes_emitOp rfl) ((Writes.require _).bind fun _ => ?_)
      refine (writes_compileOptional right).bind fun _ => ?_
      cases hop : binaryOpCode op with
      | none => exact Writes.refuse
      | some code => exact writes_emitOp (layout_binaryOpCode hop)
  | .await _ => by
    rw [compileExpr]
    exact Writes.refuse
  | .super _ => by
    rw [compileExpr]
    exact Writes.refuse
  | .comptime expression => by
    rw [compileExpr]
    exact writes_compileExpr expression

theorem writes_compileOptional : ∀ e : Option SageExpr, Writes (compileOptional e)
  | none => by
    rw [compileOptional]
    exact writes_emitOp rfl
  | some expression => by
    rw [compileOptional]
    exact writes_compileExpr expression

theorem writes_compileExprs : ∀ es : List SageExpr, Writes (compileExprs es)
  | [] => by
    rw [compileExprs]
    exact Writes.pure ()
  | expression :: rest => by
    rw [compileExprs]
    exact (writes_compileExpr expression).bind fun _ => writes_compileExprs rest

theorem writes_compileEntries : ∀ es : List (Bytes × SageExpr), Writes (compileEntries es)
  | [] => by
    rw [compileEntries]
    exact Writes.pure ()
  | (key, value) :: rest => by
    rw [compileEntries]
    exact (writes_emitConstant _).bind fun _ => (writes_compileExpr value).bind fun _ =>
      writes_compileEntries rest

end

theorem Coding.withLoops (hc : Coding J c) {loops : List LoopContext}
    (hloops : ∀ loop ∈ loops, ∀ m ∈ loop.marks, m ∈ J ∨ ∃ old ∈ c.loops, m ∈ old.marks) :
    Coding J { c with loops := loops } := by
  obtain ⟨is, hcoded, hJ⟩ := hc
  refine ⟨is, ⟨hcoded.code, hcoded.fits, hcoded.targets, fun loop hl m hm => ?_⟩, hJ⟩
  rcases hloops loop hl m hm with h | ⟨old, hold, h⟩
  · exact hJ m h
  · exact hcoded.loops old hold m h

theorem ends_pushLoop {t : ℕ} (ht : .reached t ∈ J) (isFor : Bool) (n : ℕ) :
    Ends (Coding J) (pushLoop t isFor n) fun _ => Coding J := by
  refine .get fun c hc => ?_
  refine .bind ((Writes.require _ J).mono (fun _ h => h ▸ hc) fun _ _ h => h) fun _ => ?_
  refine Ends.modify fun c hc => hc.withLoops fun loop hl m hm => ?_
  rcases mem_cons.mp hl with rfl | hl
  · rcases hm with rfl | ⟨p, hp, rfl⟩
    · exact .inl ht
    · cases hp
  · exact .inr ⟨loop, hl, hm⟩

theorem mem_modifyHead {f : LoopContext → LoopContext} {loops : List LoopContext}
    {loop : LoopContext} (h : loop ∈ loops.modifyHead f) :
    loop ∈ loops ∨ ∃ old ∈ loops, loop = f old := by
  cases loops with
  | nil => cases h
  | cons old rest =>
    rcases mem_cons.mp h with rfl | h
    · exact .inr ⟨old, mem_cons_self, rfl⟩
    · exact .inl (mem_cons_of_mem old h)

theorem ends_setContinue {t : ℕ} (ht : .reached t ∈ J) : Ends (Coding J)
    (onLoop fun loop => { loop with continueTarget := t }) fun _ => Coding J := by
  refine Ends.modify fun c hc => hc.withLoops fun loop hl m hm => ?_
  rcases mem_modifyHead hl with hl | ⟨old, hold, rfl⟩
  · exact .inr ⟨loop, hl, hm⟩
  · rcases hm with rfl | hm
    · exact .inl ht
    · exact .inr ⟨old, hold, .inr hm⟩

theorem ends_addBreak {q : ℕ} (hq : .jump q ∈ J) : Ends (Coding J)
    (onLoop fun loop => { loop with breakPatches := loop.breakPatches ++ [q] })
    fun _ => Coding J := by
  refine Ends.modify fun c hc => hc.withLoops fun loop hl m hm => ?_
  rcases mem_modifyHead hl with hl | ⟨old, hold, rfl⟩
  · exact .inr ⟨loop, hl, hm⟩
  · rcases hm with rfl | ⟨p, hp, rfl⟩
    · exact .inr ⟨old, hold, .inl rfl⟩
    · rcases mem_append.mp hp with hp | hp
      · exact .inr ⟨old, hold, .inr ⟨p, hp, rfl⟩⟩
      · exact .inl (mem_singleton.mp hp ▸ hq)

theorem ends_currentLoop :
    Ends (Coding J) currentLoop fun loop => Coding (J ∪ loop.marks) := by
  intro c hc loop c' hm
  unfold currentLoop at hm
  rw [run_get_bind] at hm
  cases hloops : c.loops with
  | nil =>
    rw [hloops] at hm
    cases hm
  | cons head rest =>
    rw [hloops] at hm
    obtain ⟨is, hcoded, hJ⟩ := hc
    have hmarks := hcoded.loops head (hloops ▸ mem_cons_self)
    cases hm
    refine ⟨is, hcoded, ?_⟩
    rintro m (hm | hm)
    · exact hJ m hm
    · exact hmarks m hm

theorem writes_popLoopAndPatchBreaks : Writes popLoopAndPatchBreaks := by
  intro J
  refine .bind ends_currentLoop fun loop => ?_
  have htail : Ends (Coding (J ∪ loop.marks))
      (modify fun c => { c with loops := c.loops.tail } : Emit Unit)
      fun _ => Coding (J ∪ loop.marks) :=
    Ends.modify fun c hc => hc.withLoops fun old hold m hm =>
      .inr ⟨old, mem_of_mem_tail hold, hm⟩
  have hpatch : Ends (Coding (J ∪ loop.marks)) (loop.breakPatches.forM patchHere)
      fun _ => Coding (J ∪ loop.marks) :=
    Ends.forM fun p hp => ends_patchHere (.inr (.inr ⟨p, hp, rfl⟩))
  exact .bind htail fun _ => hpatch.mono (fun _ h => h)
    fun _ _ h => h.mono Set.subset_union_left

theorem writes_resultNil (wantResult : Bool) : Writes (resultNil wantResult) :=
  Writes.ite (writes_emitOp rfl) (Writes.pure ())

theorem writes_forM {ι : Type} {l : List ι} {f : ι → Emit PUnit} (h : ∀ i, Writes (f i)) :
    Writes (l.forM f) := fun J => .forM fun i _ => h i J

theorem writes_compileBreak (wantResult : Bool) : Writes (compileBreak wantResult) := by
  intro J
  refine .bind ends_currentLoop fun loop => ?_
  have hjump : Writes (do
      Emit.require (loop.breakPatches.length < maxBreakPatches)
      let jumpLoc ← emitJump .jump
      onLoop fun loop => { loop with breakPatches := loop.breakPatches ++ [jumpLoc] }
      resultNil wantResult) := by
    refine (Writes.require _).bind fun _ J => .bind (ends_emitJump rfl) fun q => ?_
    refine .bind (ends_addBreak (Set.mem_insert _ _)) fun _ => ?_
    exact (writes_resultNil wantResult).ends_of_subset (Set.subset_insert _ _)
  apply Writes.ends_of_subset _ Set.subset_union_left
  apply Writes.ite _ hjump
  exact (writes_forM fun _ => writes_emitOp rfl).bind fun _ =>
    (writes_emitOp rfl).bind fun _ => hjump

theorem writes_compileContinue (wantResult : Bool) : Writes (compileContinue wantResult) := by
  intro J
  refine .bind ends_currentLoop fun loop => ?_
  refine .bind (ends_emitJumpTo rfl (.inr (.inl rfl))) fun _ => ?_
  exact (writes_resultNil wantResult).ends_of_subset Set.subset_union_left

theorem writes_compileBranches {thenCode elseCode : Emit Unit} (hthen : Writes thenCode)
    (helse : Writes elseCode) : Writes (compileBranches thenCode elseCode) := by
  intro J
  refine .bind (ends_emitJump rfl) fun p => .bind (writes_emitOp rfl _) fun _ => ?_
  refine .bind (hthen _) fun _ => .bind (ends_emitJump rfl) fun q => ?_
  refine .bind (ends_patchHere (by simp)) fun _ => .bind (writes_emitOp rfl _) fun _ => ?_
  refine .bind (helse _) fun _ => ?_
  exact (ends_patchHere (Set.mem_insert _ _)).mono (fun _ h => h)
    fun _ _ h => h.mono ((Set.subset_insert _ _).trans (Set.subset_insert _ _))

theorem writes_compileWhile {condition body : Emit Unit} (hcondition : Writes condition)
    (hbody : Writes body) : Writes (compileWhile condition body) := by
  intro J
  refine .bind ends_currentOffset fun start => .bind (hcondition _) fun _ => ?_
  refine .bind (ends_emitJump rfl) fun p => .bind (writes_emitOp rfl _) fun _ => ?_
  refine .bind (ends_pushLoop (by simp) _ _) fun _ => .bind (hbody _) fun _ => ?_
  refine .bind (ends_emitJumpTo rfl (by simp)) fun _ => ?_
  refine .bind (writes_popLoopAndPatchBreaks _) fun _ => ?_
  refine .bind (ends_patchHere (Set.mem_insert _ _)) fun _ => ?_
  exact (writes_emitOp rfl).ends_of_subset ((Set.subset_insert _ _).trans (Set.subset_insert _ _))

/-- Two DUPs in a row are one instruction: the machine takes the second for an operand. -/
theorem writes_emitDupPair : Writes (emitDup 0 >>= fun _ => emitDup 2) := by
  intro J c hc _ c' hm
  unfold emitDup at hm
  rw [run_bind_of (emitSmall_eq c .dup 0), emitSmall_eq, BytecodeCompiler.append_append] at hm
  cases hm
  exact hc.append (i := .dup dupConstant) (.inl rfl) nofun

theorem writes_emitDup_one : Writes (emitDup 1) := by
  intro J c hc _ c' hm
  unfold emitDup at hm
  rw [emitSmall_eq] at hm
  cases hm
  exact hc.append (i := .dup dupNil) (.inr rfl) nofun

theorem writes_compileFor (loopVar : Bytes) {iterable body : Emit Unit}
    (hiterable : Writes iterable) (hbody : Writes body) :
    Writes (compileFor loopVar iterable body) := by
  refine hiterable.bind fun _ => (writes_emitOp rfl).bind fun _ => ?_
  refine (writes_emitConstant _).bind fun _ J => .bind ends_currentOffset fun start => ?_
  rw [← LawfulMonad.bind_assoc]
  refine .bind (writes_emitDupPair _) fun _ => ?_
  refine .bind (writes_emitOp rfl _) fun _ => .bind (writes_emitOp rfl _) fun _ => ?_
  refine .bind (ends_emitJump rfl) fun p => .bind (writes_emitOp rfl _) fun _ => ?_
  refine .bind (writes_emitDup_one _) fun _ => .bind (writes_emitDup_one _) fun _ => ?_
  refine .bind (writes_emitOp rfl _) fun _ => .bind (writes_emitNameOp rfl _ _) fun _ => ?_
  refine .bind ends_currentOffset fun target => ?_
  refine .bind (ends_pushLoop (by simp) _ _) fun _ => .bind (hbody _) fun _ => ?_
  refine .bind ends_currentOffset fun increment => ?_
  refine .bind (ends_setContinue (by simp)) fun _ => ?_
  refine .bind (writes_emitConstant _ _) fun _ => .bind (writes_emitOp rfl _) fun _ => ?_
  refine .bind (ends_emitJumpTo rfl (by simp)) fun _ => ?_
  refine .bind (writes_popLoopAndPatchBreaks _) fun _ => ?_
  refine .bind (ends_patchHere (by simp)) fun _ => .bind (writes_emitOp rfl _) fun _ => ?_
  refine .bind (writes_emitOp rfl _) fun _ => .bind (writes_emitOp rfl _) fun _ => ?_
  apply (writes_emitOp rfl).ends_of_subset
  intro m hm
  simp [hm]

theorem writes_buildFunction (params : List Bytes) (body : Emit Unit) :
    Writes (buildFunction params body) := by
  intro J c hc n c' hm
  unfold buildFunction at hm
  dsimp only at hm
  split at hm
  · cases hm
  · cases hm
    obtain ⟨is, hcoded, hJ⟩ := hc
    exact ⟨is, ⟨hcoded.code, hcoded.fits, hcoded.targets, hcoded.loops⟩, hJ⟩

mutual

theorem writes_compileStmt (s : SageStmt) (wantResult : Bool) :
    Writes (compileStmt s wantResult) := by
  rw [compileStmt.eq_def]
  refine Writes.get_bind fun _ => (Writes.require _).bind fun _ => ?_
  match s with
  | .print expression =>
    exact (writes_compileExpr _).bind fun _ => (writes_emitOp rfl).bind fun _ =>
      writes_resultNil _
  | .letVar name initializer =>
    exact (writes_compileOptional _).bind fun _ => (writes_emitNameOp rfl _).bind fun _ =>
      writes_resultNil _
  | .proc name params body =>
    exact (writes_buildFunction _ _).bind fun _ => (writes_emitDefineFunction _ _).bind fun _ =>
      writes_resultNil _
  | .expression expression =>
    exact (writes_compileExpr _).bind fun _ => Writes.ite (Writes.pure ()) (writes_emitOp rfl)
  | .block statements => exact (writes_compileBlock statements).bind fun _ => writes_resultNil _
  | .ifElse condition thenBranch elseBranch =>
    refine (writes_compileExpr _).bind fun _ => Writes.bind ?_ fun _ => writes_resultNil _
    exact writes_compileBranches (writes_compileStmt thenBranch false)
      (writes_compileElse elseBranch)
  | .whileLoop condition body =>
    exact (writes_compileWhile (writes_compileExpr _) (writes_compileStmt body false)).bind
      fun _ => writes_resultNil _
  | .forLoop loopVar iterable body =>
    exact (writes_compileFor _ (writes_compileExpr _) (writes_compileStmt body false)).bind
      fun _ => writes_resultNil _
  | .brk => exact writes_compileBreak _
  | .cont => exact writes_compileContinue _
  | .ret value => exact (writes_compileOptional _).bind fun _ => writes_emitOp rfl
  | .other kind => exact Writes.refuse

theorem writes_compileBlock : ∀ ss : List SageStmt, Writes (compileBlock ss)
  | [] => by
    rw [compileBlock]
    exact Writes.pure ()
  | s :: rest => by
    rw [compileBlock]
    exact (writes_compileStmt s false).bind fun _ => writes_compileBlock rest

theorem writes_compileElse : ∀ s : Option SageStmt, Writes (compileElse s)
  | none => by
    rw [compileElse]
    exact Writes.pure ()
  | some s => by
    rw [compileElse]
    exact writes_compileStmt s false

end

/-- The code of a chunk before its final return. -/
structure BytecodeChunk.Written (chunk : BytecodeChunk) (is : List Instr) : Prop where
  code : chunk.code = encodeAll is ++ [OpCode.ret.byte]
  fits : ∀ i ∈ is, i.Fits chunk.constants.length
  targets : ∀ i ∈ is, ∀ t ∈ i.target, t ≤ (encodeAll is).length

theorem written_compileStatement {functions functions' : List BytecodeFunction} {s : SageStmt}
    {chunk : BytecodeChunk} (h : compileStatement functions s = some (chunk, functions')) :
    ∃ is, chunk.Written is := by
  obtain ⟨⟨u, c⟩, hrun, hc⟩ := map_eq_some_iff.mp h
  obtain ⟨_, c₁, hstmt, hret⟩ := exists_of_run_bind hrun
  have hstart : Coding ∅ { allowReturn := false, functions := functions } :=
    ⟨[], ⟨rfl, nofun, nofun, nofun⟩, nofun⟩
  obtain ⟨is, hcoded, -⟩ := writes_compileStmt s true ∅ _ hstart _ _ hstmt
  cases hret
  cases hc
  exact ⟨is, congrArg (· ++ [OpCode.ret.byte]) hcoded.code, hcoded.fits, hcoded.targets⟩

theorem written_compileProgramFrom {statements : List SageStmt}
    {functions functions' : List BytecodeFunction} {chunks : List BytecodeChunk}
    (h : compileProgramFrom functions statements = some (chunks, functions')) :
    ∀ chunk ∈ chunks, ∃ is, chunk.Written is := by
  induction statements generalizing functions chunks with
  | nil =>
    cases h
    exact nofun
  | cons s rest ih =>
    obtain ⟨⟨chunk, functions₁⟩, hchunk, hrest⟩ := bind_eq_some_iff.mp h
    obtain ⟨⟨chunks₁, functions₂⟩, hchunks, hpair⟩ := bind_eq_some_iff.mp hrest
    cases hpair
    exact forall_mem_cons.mpr ⟨written_compileStatement hchunk, ih hchunks⟩

theorem written_compileProgram {statements : List SageStmt} {functions : List BytecodeFunction}
    {chunks : List BytecodeChunk} (h : compileProgram statements = some (chunks, functions)) :
    ∀ chunk ∈ chunks, ∃ is, chunk.Written is := written_compileProgramFrom h

end SageOS
