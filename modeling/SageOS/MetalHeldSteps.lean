import SageOS.MetalCall
import SageOS.MetalHolding

/-!
# Instructions and what they hold

Every instruction without an allocation leaves a sound state sound. Returning is the one that needs
care: it puts the stack pointer back to where the call found it, and cells above the current top may
hold values that were given up long ago.
-/
namespace SageOS
open List
namespace MetalVM
open Checked MetalHeap
variable {host : MetalHost} {held : List MetalValue} {vm : MetalVM} {v : MetalValue} {α β : Type}

theorem storable_head (w : MetalValue) : Storable (w :: held) w := Or.inl mem_cons_self

theorem storable_plain {w : MetalValue} (hw : w.ref = none) : Storable held w := Or.inr hw

theorem done_opConstant : Done held opConstant := by
  apply done_readU16.bind
  intro idx
  apply done_unlessError
  apply Hands.get
  intro s hs
  apply Ends.ite
  · intro _
    exact (done_goOn ((hands_constAt idx).bind fun w => done_push (storable_head w))).at_state hs
  · intro _
    exact (done_fail _).at_state hs

theorem done_opDup : Done held opDup := by
  apply Hands.get
  intro s hs
  apply Ends.ite
  · intro _
    exact (done_fail _).at_state hs
  · intro hsp
    have hpush : Ends (· = s) (stackAt (s.sp - 1) >>= push) fun _ => Sound held := by
      refine .bind (ends_stackAt _ s) fun w => ?_
      rintro s ⟨rfl, -, rfl⟩ a s' hrun
      have hlive := hs.stack ((s.sp : ℤ) - 1).toNat (by omega)
      exact (done_push (storable_head _) s (hs.cons hlive) a s' hrun).mono (subset_cons_self _ held)
    exact .bind hpush fun _ => .pure fun _ h => h

theorem done_opDefineGlobal : Done held opDefineGlobal := by
  apply done_readU16.bind
  intro idx
  apply done_unlessError
  apply done_goOn
  apply hands_pop.bind
  intro w
  exact (done_nameHash idx).bind fun hash => done_scopeDefine hash idx (storable_head w)

theorem done_opGetGlobal : Done held opGetGlobal := by
  apply done_readU16.bind
  intro idx
  apply done_unlessError
  apply done_goOn
  apply (done_nameHash idx).bind
  intro hash
  apply Hands.get
  intro s hs
  refine .bind (ends_scopeLookup hash s.scopeDepth s) fun r => ?_
  cases r with
  | none =>
    exact .mono (done_push (storable_plain ref_mvNil)) (fun _ h => h.1 ▸ hs) fun _ _ h => h
  | some found =>
    obtain ⟨d, w⟩ := found
    rintro s ⟨rfl, hfound⟩ a s' hrun
    obtain ⟨hd, x, hx, rfl⟩ := hfound d w rfl
    exact (done_push (storable_head _) s (hs.cons (hs.scopes d hd x hx)) a s' hrun).mono
      (subset_cons_self _ _)

theorem done_opSetGlobal : Done held opSetGlobal := by
  apply done_readU16.bind
  intro idx
  apply done_unlessError
  apply done_goOn
  apply hands_pop.bind
  intro w
  exact (done_nameHash idx).bind fun hash => done_scopeAssign hash (storable_head w)

theorem done_opDefineFn : Done held opDefineFn := by
  apply done_readU16.bind
  intro nameIdx
  apply done_readU16.bind
  intro fnIdx
  apply done_unlessError
  apply done_goOn
  exact (done_nameHash nameIdx).bind fun hash =>
    done_scopeDefine hash nameIdx (storable_plain (ref_ofInt_fn _))

theorem done_binary {f : MetalValue → MetalValue → MetalValue} (hf : ∀ a b, (f a b).ref = none) :
    Done held (binary f) :=
  done_goOn (hands_pop.bind fun b => hands_pop.bind fun a => done_push (storable_plain (hf a b)))

theorem done_unary {f : MetalValue → MetalValue} (hf : ∀ a, (f a).ref = none) :
    Done held (unary f) :=
  done_goOn (hands_pop.bind fun a => done_push (storable_plain (hf a)))

theorem done_opAdd : Done held (opAdd host) := by
  apply done_goOn
  apply hands_pop.bind
  intro b
  apply hands_pop.bind
  intro a
  exact Hands.ite ((hands_internWith _).bind fun w => done_push (storable_head w))
    (done_push (storable_plain (ref_mvNum _)))

theorem done_divideWith (f : UInt64 → UInt64 → UInt64) (msg : String) :
    Done held (divideWith host f msg) := by
  apply hands_pop.bind
  intro b
  apply hands_pop.bind
  intro a
  exact Hands.ite (done_fail msg) (done_goOn (done_push (storable_plain (ref_mvNum _))))

theorem done_opJump : Done held opJump :=
  done_goOn (done_readU16.bind fun target => done_jumpTo target)

theorem done_opJumpIfFalse : Done held (opJumpIfFalse host) := by
  apply done_goOn
  apply done_readU16.bind
  intro off
  exact hands_pop.bind fun _ => Hands.ite (done_pure ()) (done_jumpTo off)

theorem done_opLoopBack : Done held opLoopBack := by
  apply done_goOn
  apply done_readU16.bind
  intro off
  exact Hands.modify fun s hs => hs.withStatus s.code (s.ip - off) s.strings s.halted s.error

theorem done_opImport : Done held opImport := by
  apply done_readU16.bind
  intro idx
  exact done_unlessError (done_goOn ((done_nameHash idx).bind fun _ => done_pure ()))

theorem done_opGetProperty : Done held opGetProperty := by
  apply done_readU16.bind
  intro idx
  apply done_unlessError
  apply done_goOn
  apply hands_pop.bind
  intro obj
  by_cases hdict : obj.type = .dict
  · simp only [if_pos hdict]
    apply Hands.get
    intro s hs
    have hlive := liveValue_metalDictGet hs mem_cons_self hdict idx
    rintro s rfl a s' hrun
    exact (done_push (storable_head _) s (hs.cons hlive) a s' hrun).mono (subset_cons_self _ _)
  · simp only [if_neg hdict]
    exact done_push (storable_plain ref_mvNil)

theorem stores_ite {c : Prop} [Decidable c] {f : MetalHeap → MetalHeap}
    (hf : ∀ h, Stores h v (f h)) (h : MetalHeap) : Stores h v (if c then f h else h) := by
  split_ifs
  · exact hf h
  · exact Stores.refl h v

theorem done_opSetProperty : Done held opSetProperty := by
  apply done_readU16.bind
  intro idx
  apply done_unlessError
  apply done_goOn
  apply hands_pop.bind
  intro w
  apply hands_pop.bind
  intro obj
  have hw : Storable (obj :: w :: held) w := Or.inl (mem_cons_of_mem _ mem_cons_self)
  apply (done_onHeap hw (stores_ite fun h => Stores.metalDictSet h obj.int idx w)).bind
  intro _
  exact done_push hw

theorem done_opArrayLen : Done held (opArrayLen host) := by
  apply done_goOn
  apply hands_pop.bind
  intro a
  exact Hands.get fun s hs => (done_push (storable_plain (ref_mvNum _))).at_state hs

theorem done_opGetIndex : Done held (opGetIndex host) := by
  apply done_goOn
  apply hands_pop.bind
  intro idx
  apply hands_pop.bind
  intro obj
  apply Hands.get
  intro s hs
  have hpush {w : MetalValue} (hw : s.heap.LiveValue w) :
      Ends (· = s) (push w) fun _ => Sound (obj :: idx :: held) := by
    rintro s rfl a s' hrun
    exact (done_push (storable_head _) s (hs.cons hw) a s' hrun).mono (subset_cons_self _ _)
  apply Ends.ite
  · intro harr
    exact hpush (liveValue_metalArrayGet hs mem_cons_self harr _)
  · intro _
    apply Ends.ite
    · rintro ⟨hdict, -⟩
      exact hpush (liveValue_metalDictGet hs mem_cons_self hdict _)
    · intro _
      exact hpush (liveValue_of_ref_none _ ref_mvNil)

theorem done_opSetIndex : Done held (opSetIndex host) := by
  apply done_goOn
  apply hands_pop.bind
  intro w
  apply hands_pop.bind
  intro idx
  apply hands_pop.bind
  intro obj
  have hw : Storable (obj :: idx :: w :: held) w := Or.inl (by simp)
  refine (done_onHeap hw fun h => ?_).bind fun _ => done_push hw
  split_ifs
  · exact Stores.metalArraySet h obj.int _ w
  · exact Stores.metalDictSet h obj.int _ w
  · exact Stores.refl h w

theorem done_finishMethod (argc : ℕ) (hv : Storable held v) : Done held (finishMethod argc v) :=
  done_goOn ((done_dropStack _).bind fun _ => done_push hv)

variable {s : MetalVM}

theorem ends_stackAt_held {i : ℤ} (hs : Sound held s) (hi : i < s.sp) :
    Ends (· = s) (stackAt i) fun w s' =>
      s' = s ∧ (0 ≤ i ∧ w = s.stack i.toNat) ∧ Sound (w :: held) s := by
  intro s₀ he w s' hrun
  obtain ⟨hs', hpos, rfl⟩ := ends_stackAt i s s₀ he w s' hrun
  exact ⟨hs', ⟨hpos, rfl⟩, hs.cons (hs.stack i.toNat (by omega))⟩

theorem ends_arrayMethod (hs : Sound held s) (hsp : 0 < s.sp) (argc : ℕ)
    (method : Bytes) (receiver : MetalValue) :
    Ends (· = s) (arrayMethod host argc method receiver) fun _ => Sound held := by
  apply Ends.get
  rintro s rfl
  apply Ends.ite
  · intro _
    refine .bind (ends_stackAt_held hs (by omega)) fun w => ?_
    rintro s ⟨rfl, -, hw⟩ a s' hrun
    have hpush : Done (w :: held) (onHeap (fun h => h.metalArrayPush receiver.int w) >>= fun _ =>
        finishMethod argc mvNil) :=
      (done_onHeap (storable_head w) fun h => Stores.metalArrayPush h _ w).bind fun _ =>
        done_finishMethod argc (storable_plain ref_mvNil)
    exact (hpush s hw a s' hrun).mono (subset_cons_self _ _)
  · intro _
    apply Ends.ite
    · intro _
      exact (done_finishMethod argc (storable_plain (ref_mvNum _))).at_state hs
    · intro _
      exact (done_fail _).at_state hs

theorem done_affixMethod (argc : ℕ) (starts : Bool) (str : Bytes) :
    Done held (affixMethod argc starts str) := by
  apply Hands.get
  intro s hs
  refine .bind (ends_stackAt _ s) fun w => ?_
  exact .mono (done_finishMethod argc (storable_plain (ref_mvBool _))) (fun _ h => h.1 ▸ hs)
    fun _ _ h => h

theorem done_stringMethod (argc : ℕ) {method : Bytes} (hsplit : method ≠ bytes "split")
    (receiver : MetalValue) : Done held (stringMethod argc method receiver) := by
  apply (done_stringAt receiver.int).bind
  intro str
  simp only [if_neg hsplit]
  apply Hands.ite
  · exact (hands_internWith _).bind fun w => done_finishMethod argc (storable_head w)
  · apply Hands.ite
    · exact done_affixMethod argc true str
    · exact Hands.ite (done_affixMethod argc false str) (done_fail _)

theorem ends_bindParams (argc : ℕ) (params : List (UInt32 × ℕ)) (n : ℕ) :
    Ends (fun s => Sound held s ∧ s.sp = n) (bindParams argc params) fun _ s =>
      Sound held s ∧ s.sp = n := by
  apply Ends.forM
  rintro p _ s ⟨hs, rfl⟩ a s' hrun
  refine ⟨?_, ?_⟩
  · have hround : Ends (Sound held) (do
        let vm ← MonadState.get
        if p.2 < argc then
          let arg ← stackAt (vm.sp - argc + p.2)
          scopeDefine p.1 (-1) arg
        else scopeDefine p.1 (-1) mvNil) fun _ => Sound held := by
      apply Ends.get
      intro s hs
      apply Ends.ite
      · intro hp
        refine .bind (ends_stackAt_held hs (by omega)) fun w => ?_
        rintro s ⟨rfl, -, hw⟩ a s' hrun
        exact (done_scopeDefine p.1 (-1) (storable_head w) s hw a s' hrun).mono
          (subset_cons_self _ _)
      · intro _
        exact (done_scopeDefine p.1 (-1) (storable_plain ref_mvNil)).at_state hs
    exact hround s hs a s' hrun
  · have hfix : Fixes MetalVM.sp (do
        let vm ← MonadState.get
        if p.2 < argc then
          let arg ← stackAt (vm.sp - argc + p.2)
          scopeDefine p.1 (-1) arg
        else scopeDefine p.1 (-1) mvNil) :=
      Fixes.get.bind fun _ => .ite
        ((fixes_stackAt _).bind fun _ => fixes_scopeDefine (fun _ _ _ => rfl) _ _ _)
        (fixes_scopeDefine (fun _ _ _ => rfl) _ _ _)
    exact hfix s a s' hrun

theorem ends_callFunction (hs : Sound held s) (argc : ℕ) {fn : MetalFunction}
    (hfn : ConstPool.Plain fn.constants) :
    Ends (· = s) (callFunction argc fn) fun _ => Sound held := by
  apply Ends.get
  rintro s rfl
  apply Ends.ite
  · intro _
    exact (done_fail _).at_state hs
  · intro _
    refine .bind ?_ fun _ => .pure fun _ h => h
    refine .bind (ends_setFrameAt _ _ s) fun _ => .bind
      (Ends.modify (Q := fun _ s' => Sound held s' ∧ s'.sp = s.sp) ?_) fun _ => .bind
      (Q := fun _ s' => Sound held s' ∧ s'.sp = s.sp) ?_ fun _ => .bind
      (ends_bindParams argc _ s.sp) fun _ => Ends.modify ?_
    · rintro s' rfl
      refine ⟨⟨hs.tidy, hs.stack, hs.depth, hs.scopes, hs.held, hfn, hs.functions, ?_⟩, rfl⟩
      intro i
      dsimp only
      by_cases hi : i = s.frameCount
      · subst hi
        rw [Function.update_self]
        exact hs.constants
      · rw [Function.update_of_ne hi]
        exact hs.frames i
    · rintro s₁ ⟨h₁, hsp⟩ a s₂ hrun
      refine ⟨done_enterScope s₁ h₁ a s₂ hrun, ?_⟩
      exact (fixes_enterScope (fun _ _ _ => rfl) s₁ a s₂ hrun).trans hsp
    · rintro s₂ ⟨h₂, hsp⟩
      exact h₂.withSp (by omega)

theorem ends_pop (hs : Sound held s) :
    Ends (· = s) pop fun w s' => s' = { s with sp := s.sp - 1 } ∧ s.heap.LiveValue w := by
  apply Ends.get
  rintro s rfl
  apply Ends.ite
  · intro hsp
    apply Ends.pure
    rintro s rfl
    have hsame : s.sp - 1 = s.sp := by omega
    exact ⟨by rw [hsame], liveValue_of_ref_none _ ref_mvNil⟩
  · intro hsp
    refine .bind (ends_stackAt_held hs (by omega)) fun w => .bind
      (Ends.modify (Q := fun _ s' => s' = { s with sp := s.sp - 1 } ∧ s.heap.LiveValue w) ?_)
      fun _ => .pure fun _ h => h
    rintro s ⟨rfl, -, hw⟩
    exact ⟨rfl, hw.held w mem_cons_self⟩

theorem ends_opReturn (hs : Sound held s)
    (hbase : 0 < s.frameCount → (s.callStack (s.frameCount - 1)).spBase ≤ s.sp) :
    Ends (· = s) opReturn fun _ => Sound held := by
  refine .bind (ends_pop hs) fun res => .get ?_
  rintro s₁ ⟨rfl, hres⟩
  apply Ends.ite
  · intro hframe
    refine .bind ?_ fun _ => .pure fun _ h => h
    refine .bind (Ends.modify (Q := fun _ s' => s' =
      { s with sp := s.sp - 1, scopeDepth := s.scopeDepth - 1 }) fun _ he => he ▸ rfl) fun _ =>
      Ends.bind (ends_frameAt _ _) fun f => .bind
      (Ends.modify (Q := fun _ => Sound (res :: held)) ?_) fun _ => ?_
    · rintro _ ⟨rfl, rfl⟩
      exact ⟨hs.tidy, fun i hi => hs.stack i (hi.trans_le (hbase hframe)),
        (Nat.sub_le _ 1).trans_lt hs.depth, fun d hd => hs.scopes d (hd.trans (Nat.sub_le _ 1)),
        (hs.cons hres).held, hs.frames _, hs.functions, hs.frames⟩
    · exact .mono (done_push (storable_head res)) (fun _ h => h)
        fun _ _ h => h.mono (subset_cons_self _ _)
  · intro _
    refine .bind (Ends.modify (Q := fun _ => Sound held) ?_) fun _ => .pure fun _ h => h
    rintro _ rfl
    exact (hs.withSp (Nat.sub_le _ 1)).withStatus s.code s.ip s.strings true s.error

/-- The instructions that may allocate. -/
def MayAllocate : OpCode → Prop
  | .slice | .callMethod | .call | .array | .tuple | .dict => True
  | _ => False

theorem ends_exec (hs : Sound held s) {op : OpCode} (hop : ¬ MayAllocate op)
    (hbase : op = .ret → 0 < s.frameCount → (s.callStack (s.frameCount - 1)).spBase ≤ s.sp) :
    Ends (· = s) (exec host op) fun _ => Sound held := by
  have hdone {m : Run Bool} (hm : Done held m) : Ends (· = s) m fun _ => Sound held :=
    hm.at_state hs
  have hpop := hdone (done_goOn (hands_pop.bind fun _ => done_pure ()))
  cases op with
  | slice | callMethod | call | array | tuple | dict => exact absurd trivial hop
  | ret => exact ends_opReturn hs (hbase rfl)
  | constant => exact hdone done_opConstant
  | pushNil | pushTrue | pushFalse => exact hdone (done_goOn (done_push (storable_plain rfl)))
  | popValue | print | inheritClass => exact hpop
  | dup => exact hdone done_opDup
  | defineGlobal => exact hdone done_opDefineGlobal
  | getGlobal => exact hdone done_opGetGlobal
  | setGlobal => exact hdone done_opSetGlobal
  | defineFn => exact hdone done_opDefineFn
  | add => exact hdone done_opAdd
  | div | mod => exact hdone (done_divideWith _ _)
  | sub | mul | equal | notEqual | greater | greaterEq | less | lessEq | bitAnd | bitOr | bitXor
  | shiftLeft | shiftRight => exact hdone (done_binary fun _ _ => rfl)
  | negate | bitNot | logicalNot | truthy => exact hdone (done_unary fun _ => rfl)
  | jump | brk | cont => exact hdone done_opJump
  | jumpIfFalse => exact hdone done_opJumpIfFalse
  | loopBack => exact hdone done_opLoopBack
  | importModule => exact hdone done_opImport
  | execAstStmt => exact hdone (done_readU16.bind fun _ => done_fail _)
  | pushEnv => exact hdone (done_goOn done_enterScope)
  | popEnv => exact hdone (done_goOn done_leaveScope)
  | getProperty => exact hdone done_opGetProperty
  | setProperty => exact hdone done_opSetProperty
  | arrayLen => exact hdone done_opArrayLen
  | getIndex => exact hdone done_opGetIndex
  | setIndex => exact hdone done_opSetIndex
  | defClass => exact hdone (done_goOn (done_readU16.bind fun _ => done_readU16.bind fun _ =>
    done_readU16.bind fun _ => done_pure ()))
  | defMethod => exact hdone (done_goOn (done_readU16.bind fun _ => done_pure ()))
  | setupTry => exact hdone (done_goOn (done_readU16.bind fun _ => done_readU16.bind fun _ =>
    done_pure ()))
  | endTry => exact hdone (done_pure true)
  | raise => exact hdone (hands_pop.bind fun _ => done_fail _)
  | halt => exact hdone (Hands.bind (Hands.modify fun s hs =>
    hs.withStatus s.code s.ip s.strings true s.error) fun _ => done_pure false)

end MetalVM
end SageOS
