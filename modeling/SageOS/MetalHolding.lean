import SageOS.MetalRooted

/-!
# What an instruction hands on

`Hands held m out` says that `m`, started in a sound state with `held` in its hands, ends in a sound
state and holds in addition the values `out a` of its result `a`. Every instruction that does not
allocate hands on nothing, if a function that returns has not taken from the stack of its caller.
-/
namespace SageOS
open List Function Option
namespace MetalVM
open Checked MetalHeap
variable {host : MetalHost} {held : List MetalValue} {vm : MetalVM} {v : MetalValue} {α β : Type}

def Hands (held : List MetalValue) (m : Run α) (out : α → List MetalValue) : Prop :=
  Ends (Sound held) m fun a => Sound (out a ++ held)

/-- Nothing more is held in the end. -/
abbrev Done (held : List MetalValue) (m : Run α) : Prop := Hands held m fun _ => []

namespace Hands
variable {m : Run α} {out : α → List MetalValue} {out' : β → List MetalValue}

theorem bind {f : α → Run β} (hm : Hands held m out)
    (hf : ∀ a, Hands (out a ++ held) (f a) out') : Hands held (m >>= f) out' := by
  refine Ends.bind hm fun a => Ends.mono (hf a) (fun _ hs => hs) fun b s hs => hs.mono ?_
  intro w hw
  simp only [mem_append] at hw ⊢
  exact hw.imp_right Or.inr

theorem pure {a : α} (h : ∀ w ∈ out a, Storable held w) : Hands held (pure a) out := by
  apply Ends.pure
  intro s hs
  have hheld : ∀ w ∈ out a ++ held, s.heap.LiveValue w := fun w hw =>
    (mem_append.mp hw).elim (fun hw => hs.live (h w hw)) (hs.held w)
  exact { hs with held := hheld }

theorem get {f : MetalVM → Run β}
    (hf : ∀ s, Sound held s → Ends (· = s) (f s) fun b => Sound (out' b ++ held)) :
    Hands held (MonadState.get >>= f) out' := Ends.get hf

theorem at_state {s : MetalVM} (hm : Hands held m out) (hs : Sound held s) :
    Ends (· = s) m fun a => Sound (out a ++ held) :=
  Ends.mono hm (fun _ he => he ▸ hs) fun _ _ h => h

theorem ite {c : Prop} [Decidable c] {m' : Run α} (ht : Hands held m out)
    (hf : Hands held m' out) : Hands held (if c then m else m') out :=
  Ends.ite (fun _ => ht) fun _ => hf

theorem modify {f : MetalVM → MetalVM} (h : ∀ s, Sound held s → Sound held (f s)) :
    Done held (modify f) := Ends.modify h

end Hands

theorem ends_require {p : MetalVM → Prop} [DecidablePred p] (s : MetalVM) :
    Ends (· = s) (Checked.require p) fun _ s' => s' = s ∧ p s := by
  rintro _ rfl a s' hrun
  unfold Checked.require at hrun
  split_ifs at hrun with hp
  cases hrun
  exact ⟨rfl, hp⟩

theorem ends_stackAt (i : ℤ) (s : MetalVM) :
    Ends (· = s) (stackAt i) fun v s' => s' = s ∧ 0 ≤ i ∧ v = s.stack i.toNat := by
  refine .bind (ends_require s) fun _ => .get fun s' hs' => .pure ?_
  rintro _ rfl
  exact ⟨hs'.1, hs'.2.1, hs'.1 ▸ rfl⟩

theorem ends_setStackAt (i : ℤ) (v : MetalValue) (s : MetalVM) :
    Ends (· = s) (setStackAt i v) fun _ s' =>
      s' = { s with stack := update s.stack i.toNat v } := by
  refine .bind (ends_require s) fun _ => Ends.modify ?_
  rintro s' ⟨rfl, -⟩
  rfl

theorem ends_scopeAt (d : ℕ) (s : MetalVM) :
    Ends (· = s) (scopeAt d) fun vars s' => s' = s ∧ vars = s.scopes d := by
  refine .bind (ends_require s) fun _ => .get fun s' hs' => .pure ?_
  rintro _ rfl
  exact ⟨hs'.1, hs'.1 ▸ rfl⟩

theorem ends_setScopeAt (d : ℕ) (vars : List MetalVar) (s : MetalVM) :
    Ends (· = s) (setScopeAt d vars) fun _ s' =>
      s' = { s with scopes := update s.scopes d vars } := by
  refine .bind (ends_require s) fun _ => Ends.modify ?_
  rintro s' ⟨rfl, -⟩
  rfl

theorem ends_frameAt (i : ℕ) (s : MetalVM) :
    Ends (· = s) (frameAt i) fun f s' => s' = s ∧ f = s.callStack i := by
  refine .bind (ends_require s) fun _ => .get fun s' hs' => .pure ?_
  rintro _ rfl
  exact ⟨hs'.1, hs'.1 ▸ rfl⟩

theorem ends_setFrameAt (i : ℕ) (f : MetalFrame) (s : MetalVM) :
    Ends (· = s) (setFrameAt i f) fun _ s' =>
      s' = { s with callStack := update s.callStack i f } := by
  refine .bind (ends_require s) fun _ => Ends.modify ?_
  rintro s' ⟨rfl, -⟩
  rfl

theorem done_setError (msg : String) : Done held (setError msg) :=
  Hands.modify fun s hs => hs.withStatus s.code s.ip s.strings s.halted (some msg)

theorem done_fail (msg : String) : Done held (fail msg) :=
  (done_setError msg).bind fun _ => Hands.pure fun _ hw => absurd hw not_mem_nil

theorem done_goOn {m : Run Unit} (hm : Done held m) : Done held (goOn m) :=
  hm.bind fun _ => Hands.pure fun _ hw => absurd hw not_mem_nil

theorem done_pure (a : α) : Done held (pure a : Run α) :=
  Hands.pure fun _ hw => absurd hw not_mem_nil

theorem done_unlessError {rest : Run Bool} (hrest : Done held rest) :
    Done held (unlessError rest) :=
  Hands.get fun _ hs => (Hands.ite (done_pure false) hrest).at_state hs

theorem ends_codeAt (i : ℤ) (s : MetalVM) :
    Ends (· = s) (codeAt i) fun b s' => s' = s ∧ b = s.codeByte i := by
  refine .bind (ends_require s) fun _ => .get fun s' hs' => .pure ?_
  rintro _ rfl
  exact ⟨hs'.1, hs'.1 ▸ rfl⟩

theorem ends_readU8 (s : MetalVM) : Ends (· = s) readU8 fun a s' => a = s.operandU8 ∧
    ∃ ip error, s' = { s with ip := ip, error := error } := by
  apply Ends.get
  rintro s rfl
  apply Ends.ite
  · intro hlen
    refine .bind (Q := fun _ s' => s' = { s with error := some outOfCode })
      (Ends.modify fun _ h => h ▸ rfl) fun _ => .pure ?_
    rintro _ rfl
    exact ⟨(if_pos hlen).symm, s.ip, _, rfl⟩
  · intro hlen
    refine .bind (ends_codeAt s.ip s) fun b => .bind
      (Q := fun _ s' => b = s.codeByte s.ip ∧ s' = { s with ip := s.ip + 1 })
      (Ends.modify fun _ h => ⟨h.2, h.1 ▸ rfl⟩) fun _ => .pure ?_
    rintro _ ⟨rfl, rfl⟩
    exact ⟨(if_neg hlen).symm, _, s.error, rfl⟩

theorem done_readU8 : Done held readU8 := by
  intro s hs a s' hrun
  obtain ⟨-, ip, error, rfl⟩ := ends_readU8 s s rfl a s' hrun
  exact hs.withStatus s.code ip s.strings s.halted error

theorem done_readU16 : Done held readU16 := by
  apply Hands.get
  intro s hs
  apply Ends.ite
  · intro _
    exact Hands.at_state ((done_setError outOfCode).bind fun _ => done_pure 0) hs
  · intro _
    refine .bind (ends_codeAt s.ip s) fun hi => .bind
      (.mono (ends_codeAt (s.ip + 1) s) (fun _ h => h.1) fun _ _ h => h.1) fun lo => .bind
      (Ends.modify (Q := fun _ => Sound held) ?_) fun _ => .pure fun _ h => h
    rintro s rfl
    exact hs.withStatus s.code (s.ip + 2) s.strings s.halted s.error

theorem hands_pop : Hands held pop fun v => [v] := by
  apply Hands.get
  intro s hs
  apply Ends.ite
  · intro _
    exact Hands.at_state (Hands.pure fun w hw => .inr (mem_singleton.mp hw ▸ rfl)) hs
  · intro hsp
    refine .bind (ends_stackAt _ s) fun v => .bind
      (Ends.modify (Q := fun _ => Sound (v :: held)) ?_) fun _ => .pure fun _ h => h
    rintro s ⟨rfl, -, rfl⟩
    have hlive := hs.stack ((s.sp : ℤ) - 1).toNat (by omega)
    exact (hs.cons hlive).withSp (Nat.sub_le _ _)

theorem Sound.push (hs : Sound held vm) (hv : Storable held v) :
    Sound held { vm with stack := update vm.stack vm.sp v, sp := vm.sp + 1 } := by
  refine ⟨hs.tidy, ?_, hs.depth, hs.scopes, hs.held, hs.constants, hs.functions, hs.frames⟩
  intro i hi
  dsimp only at hi ⊢
  by_cases hnew : i = vm.sp
  · subst hnew
    rw [update_self]
    exact hs.live hv
  · rw [update_of_ne hnew]
    exact hs.stack i (by omega)

theorem done_push (hv : Storable held v) : Done held (push v) := by
  apply Hands.get
  intro s hs
  apply Ends.ite
  · intro _
    exact (done_setError _).at_state hs
  · intro _
    refine .bind (ends_setStackAt _ v s) fun _ => Ends.modify ?_
    rintro _ rfl
    exact hs.push hv

theorem done_stringAt (idx : ℤ) : Done held (stringAt idx) :=
  Hands.get fun _ hs => (done_pure _).at_state hs

theorem hands_internWith (f : Bytes → ℤ × Bytes) : Hands held (internWith f) fun v => [v] := by
  apply Hands.get
  intro s hs
  refine .bind (Ends.modify (Q := fun _ => Sound held) ?_) fun _ => Hands.pure ?_
  · rintro s rfl
    exact hs.withStatus s.code s.ip _ s.halted s.error
  · intro w hw
    exact .inr (mem_singleton.mp hw ▸ rfl)

theorem hands_mvStr (str : Bytes) : Hands held (mvStr str) fun v => [v] := hands_internWith _

theorem hands_constAt (i : ℕ) : Hands held (constAt i) fun v => [v] := by
  intro s hs v s' hrun
  obtain ⟨_, s₁, hreq, hget⟩ := exists_of_run_bind hrun
  obtain ⟨rfl, -⟩ := ends_require s s rfl _ _ hreq
  cases hget
  apply hs.cons
  apply liveValue_of_ref_none
  by_cases hi : i < s'.constants.decoded.length
  · rw [getD_eq_getElem?_getD, getElem?_eq_getElem hi, getD_some]
    exact hs.constants _ (getElem_mem hi)
  · rw [getD_eq_getElem?_getD, getElem?_eq_none (not_lt.mp hi), getD_none]
    rfl

theorem done_nameHash (idx : ℕ) : Done held (nameHash idx) :=
  (hands_constAt idx).bind fun _ => (done_stringAt _).bind fun _ => done_pure _

theorem done_onHeap {f : MetalHeap → MetalHeap} (hv : Storable held v)
    (hf : ∀ h, Stores h v (f h)) : Done held (onHeap f) :=
  Hands.modify fun s hs => hs.store hv (hf s.heap)

theorem done_dropStack (n : ℕ) : Done held (dropStack n) :=
  Hands.modify fun _ hs => hs.withSp (Nat.sub_le _ _)

theorem Sound.withScope (hs : Sound held vm) (d : ℕ) {vars : List MetalVar}
    (hvars : ∀ x ∈ vars, x.value ∈ (vm.scopes d).map (·.value) ∨ Storable held x.value)
    (hd : d ≤ vm.scopeDepth) :
    Sound held { vm with scopes := update vm.scopes d vars } := by
  refine ⟨hs.tidy, hs.stack, hs.depth, ?_, hs.held, hs.constants, hs.functions, hs.frames⟩
  intro d' hd' x hx
  dsimp only at hd' hx ⊢
  by_cases hnew : d' = d
  · subst hnew
    rw [update_self] at hx
    rcases hvars x hx with hx | hx
    · obtain ⟨y, hy, hyx⟩ := mem_map.mp hx
      exact hyx ▸ hs.scopes d' hd y hy
    · exact hs.live hx
  · rw [update_of_ne hnew] at hx
    exact hs.scopes d' hd' x hx

theorem mem_storeVar {vars : List MetalVar} {hash : UInt32} {x : MetalVar}
    (hx : x ∈ storeVar vars hash v) : x.value ∈ vars.map (·.value) ∨ x.value = v := by
  unfold storeVar at hx
  cases hfind : vars.findIdx? (·.nameHash = hash) with
  | none =>
    rw [hfind] at hx
    exact .inl (mem_map_of_mem hx)
  | some i =>
    rw [hfind] at hx
    obtain ⟨j, hj, rfl⟩ := mem_iff_getElem.mp hx
    rw [getElem_modify]
    split_ifs
    · exact .inr rfl
    · exact .inl (mem_map_of_mem (getElem_mem _))

theorem done_scopeDefine (hash : UInt32) (idx : ℤ) (hv : Storable held v) :
    Done held (scopeDefine hash idx v) := by
  apply Hands.get
  intro s hs
  refine .bind (ends_scopeAt s.scopeDepth s) fun vars => ?_
  apply Ends.ite
  · intro _
    rintro s' ⟨rfl, rfl⟩ a s'' hrun
    rw [ends_setScopeAt _ _ s' s' rfl a s'' hrun]
    apply hs.withScope s'.scopeDepth _ le_rfl
    intro x hx
    rcases mem_storeVar hx with hx | hx
    · exact .inl hx
    · exact .inr (hx ▸ hv)
  · intro _
    apply Ends.ite
    · intro _
      apply Ends.pure
      rintro _ ⟨rfl, -⟩
      exact hs
    · intro _
      rintro s' ⟨rfl, rfl⟩ a s'' hrun
      rw [ends_setScopeAt _ _ s' s' rfl a s'' hrun]
      apply hs.withScope s'.scopeDepth _ le_rfl
      intro x hx
      rcases mem_append.mp hx with hx | hx
      · exact .inl (mem_map_of_mem hx)
      · exact .inr (mem_singleton.mp hx ▸ hv)

theorem ends_scopeLookup (hash : UInt32) (d : ℕ) (s : MetalVM) :
    Ends (· = s) (scopeLookup hash d) fun r s' => s' = s ∧
      ∀ d' w, r = some (d', w) → d' ≤ d ∧ ∃ x ∈ s.scopes d', x.value = w := by
  induction d with
  | zero =>
    refine .bind (ends_scopeAt 0 s) fun vars => .pure ?_
    rintro s ⟨rfl, rfl⟩
    refine ⟨rfl, ?_⟩
    intro d' w hr
    obtain ⟨x, hx, he⟩ := map_eq_some_iff.mp hr
    cases he
    exact ⟨le_rfl, x, mem_of_find?_eq_some hx, rfl⟩
  | succ d ih =>
    refine .bind (ends_scopeAt (d + 1) s) fun vars => ?_
    cases hfind : vars.find? (·.nameHash = hash) with
    | some x =>
      apply Ends.pure
      rintro s ⟨rfl, rfl⟩
      refine ⟨rfl, ?_⟩
      rintro d' w ⟨⟩
      exact ⟨le_rfl, x, mem_of_find?_eq_some hfind, rfl⟩
    | none =>
      refine .mono ih (fun _ h => h.1) ?_
      rintro r s' ⟨rfl, hr⟩
      exact ⟨rfl, fun d' w he => ⟨(hr d' w he).1.trans (Nat.le_succ d), (hr d' w he).2⟩⟩

theorem done_scopeAssign (hash : UInt32) (hv : Storable held v) :
    Done held (scopeAssign hash v) := by
  apply Hands.get
  intro s hs
  refine .bind (ends_scopeLookup hash s.scopeDepth s) fun r => ?_
  cases r with
  | none => exact .mono (done_scopeDefine hash (-1) hv) (fun _ h => h.1 ▸ hs) fun _ _ h => h
  | some found =>
    obtain ⟨d, w⟩ := found
    rintro s ⟨rfl, hfound⟩ a s' hrun
    obtain ⟨vars, s₁, hat, hset⟩ := exists_of_run_bind hrun
    obtain ⟨rfl, rfl⟩ := ends_scopeAt d s s rfl vars s₁ hat
    rw [ends_setScopeAt d _ s₁ s₁ rfl a s' hset]
    apply hs.withScope d _ (hfound d w rfl).1
    intro x hx
    rcases mem_storeVar hx with hx | hx
    · exact .inl hx
    · exact .inr (hx ▸ hv)

theorem done_jumpTo (target : ℤ) : Done held (jumpTo target) :=
  Hands.modify fun s hs => hs.withStatus s.code target s.strings s.halted s.error

theorem done_enterScope : Done held enterScope := by
  apply Hands.get
  intro s hs
  apply Ends.ite
  · intro hd
    refine .bind (Ends.modify (Q := fun _ s' => s' = { s with scopeDepth := s.scopeDepth + 1 })
      fun _ he => he ▸ rfl) fun _ => ?_
    rintro _ rfl a s' hrun
    rw [ends_setScopeAt _ _ _ _ rfl a s' hrun]
    have hdepth : s.scopeDepth + 1 < metalEnvDepth := by omega
    refine ⟨hs.tidy, hs.stack, hdepth, ?_, hs.held, hs.constants, hs.functions, hs.frames⟩
    intro d hd x hx
    dsimp only at hd hx ⊢
    by_cases hnew : d = s.scopeDepth + 1
    · subst hnew
      rw [update_self] at hx
      exact absurd hx not_mem_nil
    · rw [update_of_ne hnew] at hx
      exact hs.scopes d (by omega) x hx
  · intro _
    exact (done_pure ()).at_state hs

theorem done_leaveScope : Done held leaveScope :=
  Hands.modify fun _ hs => ⟨hs.tidy, hs.stack, (Nat.sub_le _ 1).trans_lt hs.depth,
    fun d hd => hs.scopes d (hd.trans (Nat.sub_le _ 1)), hs.held, hs.constants, hs.functions,
    hs.frames⟩

end MetalVM
end SageOS
