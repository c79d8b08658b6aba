import SageOS.CollectorSafety
import SageOS.SgvmSafety

/-!
# Runs of the machine with a safe collector

From a machine that holds no object, every run whose steps meet their conditions keeps the machine
sound and the log good. An array that a slice has popped is the smallest counterexample: with the
pool full it is collected, and the slice gets its slot.
-/
namespace SageOS
open List Option
namespace MetalVM
open Checked MetalHeap
variable {host : NativeHost} {held : List MetalValue} {s : MetalVM} {log : List SlotAllocation}

theorem ends_tracedExec (hs : Sound [] s) (hlog : LogOk log) {op : OpCode}
    (hok : OpGuard host s op) :
    Ends (· = (s, log)) (tracedExec host op) fun _ t => SoundTrace [] t := by
  by_cases hop : MayAllocate op
  · cases op with
    | slice => exact ends_tracedSlice hs hlog hok
    | callMethod => exact ends_tracedCallMethod hs hlog
    | call => exact ends_tracedCall hs hlog hok
    | array | tuple => exact ends_tracedArray hs hlog
    | dict => exact ends_tracedDict hs hlog
    | _ => exact hop.elim
  · have hexec : tracedExec host op = untraced (exec host.toHost op) := by
      cases op <;> first | rfl | exact absurd trivial hop
    rw [hexec]
    apply ends_plain _ hlog
    apply ends_exec hs hop
    rintro rfl
    exact hok

theorem ends_fetch (hip : s.ip < s.code.length) :
    Ends (· = s) readU8 fun a s' => a = s.codeByte s.ip ∧ s' = { s with ip := s.ip + 1 } := by
  apply Ends.get
  rintro s rfl
  apply Ends.ite
  · intro hlen
    exact absurd hip (not_lt.mpr hlen)
  · intro _
    refine .bind (ends_codeAt s.ip s) fun b => .bind
      (Q := fun _ s' => b = s.codeByte s.ip ∧ s' = { s with ip := s.ip + 1 })
      (Ends.modify fun _ h => ⟨h.2, h.1 ▸ rfl⟩) fun _ => .pure fun _ h => h

theorem ends_tracedStep (hs : Sound [] s) (hlog : LogOk log) (hok : s.StepGuard host) :
    Ends (· = (s, log)) (tracedStep host) fun _ t => SoundTrace [] t := by
  apply Ends.get
  rintro _ rfl
  apply Ends.ite
  · intro _
    apply Ends.pure
    rintro _ rfl
    exact ⟨hs, hlog⟩
  · intro hgo
    simp only [not_or, Bool.not_eq_true, isSome_eq_false_iff, isNone_iff_eq_none, not_le] at hgo
    obtain ⟨hhalt, herr, hip⟩ := hgo
    refine .bind (ends_untraced (ends_fetch hip)) fun op => ?_
    rintro _ ⟨s₁, rfl, rfl, rfl⟩
    have h₁ := hs.withStatus s.code (s.ip + 1) s.strings s.halted s.error
    refine Ends.get (fun t ht => ?_) _ rfl
    subst ht
    apply Ends.ite
    · intro _
      apply Ends.pure
      rintro _ rfl
      exact ⟨h₁, hlog⟩
    · intro _
      cases hcode : OpCode.ofByte (s.codeByte s.ip) with
      | none => exact ends_done h₁ hlog (done_fail _)
      | some code => exact ends_tracedExec h₁ hlog (hok hhalt herr hip code hcode)

/-- Calls of `metal_vm_step`, each with the C functions as they are at that time. -/
def tracedRun : List NativeHost → MetalVM × List SlotAllocation →
    Option (MetalVM × List SlotAllocation)
  | [], t => some t
  | host :: hosts, t => (tracedStep host t).bind fun r => tracedRun hosts r.2

def GuardedSteps : List NativeHost → MetalVM × List SlotAllocation → Prop
  | [], _ => True
  | host :: hosts, t =>
    t.1.StepGuard host ∧ ∀ r, tracedStep host t = some r → GuardedSteps hosts r.2

theorem soundTrace_tracedRun {hosts : List NativeHost} {t t' : MetalVM × List SlotAllocation}
    (ht : SoundTrace [] t) (hok : GuardedSteps hosts t) (hrun : tracedRun hosts t = some t') :
    SoundTrace [] t' := by
  induction hosts generalizing t with
  | nil => exact some.inj hrun ▸ ht
  | cons host hosts ih =>
    obtain ⟨r, hstep, hrest⟩ := bind_eq_some_iff.mp hrun
    have hr := ends_tracedStep ht.1 ht.2 hok.1 t rfl r.1 r.2 hstep
    exact ih hr (hok.2 r hstep) hrest

/-- A machine that holds no array and no dictionary yet. -/
structure Fresh (vm : MetalVM) : Prop where
  size : ∀ kind, vm.heap.size kind = 0
  stack : ∀ i < vm.sp, (vm.stack i).ref = none
  depth : vm.scopeDepth < metalEnvDepth
  scopes : ∀ d ≤ vm.scopeDepth, ∀ x ∈ vm.scopes d, x.value.ref = none
  constants : ConstPool.Plain vm.constants
  functions : ∀ i, ConstPool.Plain (vm.functions i).constants
  frames : ∀ i, ConstPool.Plain (vm.callStack i).constants

theorem fresh_loaded {image strings : Bytes} {code : CodeRef} {ip : ℤ} {used n : ℕ}
    {pool : ConstPool} (hpool : ConstPool.Plain pool) {functions : ℕ → MetalFunction}
    (hfns : ∀ i, ConstPool.Plain (functions i).constants) :
    Fresh { metalVmInit with
      image := image, strings := strings, code := code, ip := ip, heapUsed := used, fnCount := n
      constants := pool, functions := functions } where
  size kind := by cases kind <;> rfl
  stack i hi := absurd hi (Nat.not_lt_zero i)
  depth := (show 0 < metalEnvDepth by decide)
  scopes _ _ _ hx := absurd hx not_mem_nil
  constants := hpool
  functions := hfns
  frames _ := plain_empty

theorem fresh_program (image : Bytes) (code : CodeRef) : Fresh { image := image, code := code } :=
  fresh_loaded plain_empty fun _ => plain_empty

/-- A machine that has loaded a file with a good layout is fresh. -/
theorem fresh_of_load {f : SgvmFile} (hok : f.ImageOk) {vm : MetalVM}
    (h : metalVmLoadBinary f metalVmInit = some (true, vm)) : vm.Fresh := by
  obtain ⟨b, vm', hload, hvm⟩ := load_of_imageOk hok
  cases h.symm.trans hload
  obtain ⟨_, _, _, _, _, _, rfl, -, -, -, hpool, hfns⟩ := hvm rfl
  exact fresh_loaded hpool hfns

theorem Fresh.sound {vm : MetalVM} (h : vm.Fresh) : Sound [] vm where
  tidy := by
    refine ⟨fun kind => (h.size kind).trans_le (Nat.zero_le _), ?_⟩
    intro r hr
    have := hr.index_lt
    rw [h.size] at this
    exact absurd this (Nat.not_lt_zero _)
  stack i hi := liveValue_of_ref_none _ (h.stack i hi)
  depth := h.depth
  scopes d hd x hx := liveValue_of_ref_none _ (h.scopes d hd x hx)
  held _ hv := absurd hv not_mem_nil
  constants := h.constants
  functions := h.functions
  frames := h.frames

theorem tracedRun_erases (hosts : List NativeHost) (t : MetalVM × List SlotAllocation) :
    (tracedRun hosts t).map (·.1) =
      hosts.foldlM (fun vm host => (step host.toHost vm).map (·.2)) t.1 := by
  induction hosts generalizing t with
  | nil => rfl
  | cons host hosts ih =>
    rw [foldlM_cons, ← tracedStep_erases host t]
    unfold tracedRun
    cases tracedStep host t with
    | none => rfl
    | some r => exact ih r.2

/-- In every run whose steps meet their conditions, no allocation returns the slot of an object that
is still held. -/
theorem collector_safe {vm : MetalVM} (hvm : vm.Fresh) {hosts : List NativeHost}
    (hok : GuardedSteps hosts (vm, [])) {t : MetalVM × List SlotAllocation}
    (hrun : tracedRun hosts (vm, []) = some t) : ∀ a ∈ t.2, ¬ a.StillHeld :=
  (soundTrace_tracedRun ⟨hvm.sound, fun _ ha => absurd ha not_mem_nil⟩ hok hrun).2

/-- A host without C functions to speak of. -/
def plainHost : NativeHost := ⟨plainDoubles, fun _ => ⟨fun _ => .ret mvNil, fun _ => .inr rfl⟩⟩

/-- A check that a step meets its condition: no call or return, and a free slot for a slice. -/
def roomy (vm : MetalVM) : Bool :=
  match OpCode.ofByte (vm.codeByte vm.ip) with
  | some .slice => decide (0 < vm.heap.freeSlots .arr)
  | some .call | some .ret => false
  | _ => true

theorem stepGuard_of_roomy (h : s.roomy = true) : s.StepGuard host := by
  intro _ _ _ op hop
  unfold roomy at h
  rw [hop] at h
  cases op with
  | slice => exact fun _ => .inl (of_decide_eq_true h)
  | call | ret => cases h
  | _ => trivial

theorem guardedSteps_of_roomy {n : ℕ} {t : MetalVM × List SlotAllocation}
    (h : ∀ k < n, ((tracedRun (replicate k host) t).all fun t' => t'.1.roomy) = true) :
    GuardedSteps (replicate n host) t := by
  induction n generalizing t with
  | zero => trivial
  | succ n ih =>
    refine ⟨stepGuard_of_roomy (h 0 (Nat.succ_pos n)), fun r hr => ih fun k hk => ?_⟩
    have hk' := h (k + 1) (Nat.succ_lt_succ hk)
    rw [replicate_succ, tracedRun, hr] at hk'
    exact hk'

/-- An array and a slice of it, in a machine with room. -/
def sliceVm : MetalVM where
  image := [OpCode.array.byte, 0, 0, OpCode.pushNil.byte, OpCode.pushNil.byte, OpCode.slice.byte]
  code := ⟨0, 6⟩

theorem sliceVm_safe : ∃ t, tracedRun (replicate 4 plainHost) (sliceVm, []) = some t ∧
    t.2.length = 2 ∧ ∀ a ∈ t.2, ¬ a.StillHeld := by
  have hlog : (tracedRun (replicate 4 plainHost) (sliceVm, [])).map (·.2.length) = some 2 := by
    decide +kernel
  obtain ⟨t, ht, hlen⟩ := map_eq_some_iff.mp hlog
  refine ⟨t, ht, hlen, collector_safe (fresh_program _ _) (guardedSteps_of_roomy ?_) ht⟩
  decide +kernel

/-- A collection keeps exactly what the roots lead to. -/
theorem gc_keeps_reached {vm vm' : MetalVM} (hvm : vm.Fresh) {hosts : List NativeHost}
    (hok : GuardedSteps hosts (vm, []))
    (hrun : hosts.foldlM (fun s host => (step host.toHost s).map (·.2)) vm = some vm')
    (r : MetalRef) : (vm'.heap.gc vm'.roots).Live r ↔ vm'.heap.Reached vm'.roots r := by
  rw [← tracedRun_erases hosts (vm, [])] at hrun
  obtain ⟨t, ht, rfl⟩ := map_eq_some_iff.mp hrun
  have hs := (soundTrace_tracedRun ⟨hvm.sound, by simp [LogOk]⟩ hok ht).1
  have hgc := gc_collected hs.tidy hs.roots
  exact ⟨hgc.reached_of_live r, hgc.live_of_reached r⟩

theorem sliceVm_keeps_reached : ∃ vm : MetalVM, vm.sp = 1 ∧
    ∀ r, (vm.heap.gc vm.roots).Live r ↔ vm.heap.Reached vm.roots r := by
  have hrun : ((replicate 4 plainHost).foldlM (fun s host => (step host.toHost s).map (·.2))
      sliceVm).map (·.sp) = some 1 := by decide +kernel
  obtain ⟨vm, hvm, hsp⟩ := map_eq_some_iff.mp hrun
  refine ⟨vm, hsp, gc_keeps_reached (fresh_program _ _) (guardedSteps_of_roomy ?_) hvm⟩
  decide +kernel

theorem tracedRun_append (hosts hosts' : List NativeHost) (t : MetalVM × List SlotAllocation) :
    tracedRun (hosts ++ hosts') t = (tracedRun hosts t).bind (tracedRun hosts') := by
  induction hosts generalizing t with
  | nil => rfl
  | cons host hosts ih =>
    simp only [cons_append, tracedRun, bind_assoc, ih]

/-- An array that stays on the stack, arrays that are popped until the pool is full, and a slice of
the first one. -/
def crowdedByte (i : ℕ) : UInt8 :=
  if i < 4095 then
    if i = 0 ∨ i % 4 = 3 then OpCode.array.byte
    else if 3 < i ∧ i % 4 = 2 then OpCode.popValue.byte
    else 0
  else if i < 4097 then OpCode.pushNil.byte
  else OpCode.slice.byte

def crowdedCode : List UInt8 := (range 4098).map crowdedByte

def crowdedVm : MetalVM := { image := crowdedCode, code := ⟨0, 4098⟩ }

def usedHeap (k : ℕ) : MetalHeap where
  arrays i := { inUse := decide (i < k) }
  arrayCount := k

/-- The machine at byte `i`, after `k` arrays. -/
def crowdedAt (i sp : ℕ) (stack : ℕ → MetalValue) (k : ℕ) : MetalVM :=
  { crowdedVm with ip := i, sp := sp, stack := stack, heap := usedHeap k }

variable {i j k n : ℕ} {v : ℕ → MetalValue}

theorem inCode_crowdedAt (hj : j < 4098) : InCode j (crowdedAt i n v k) := by
  have hlen : (crowdedAt i n v k).image.length = 4098 := by
    simp [crowdedAt, crowdedVm, crowdedCode]
  unfold InCode
  rw [hlen]
  dsimp only [crowdedAt, crowdedVm]
  omega

theorem codeByte_crowdedAt (hj : j < 4098) :
    (crowdedAt i n v k).codeByte j = (crowdedByte j).toNat := by
  unfold codeByte
  simp [crowdedAt, crowdedVm, crowdedCode, getD_eq_getElem?_getD, hj]

attribute [irreducible] crowdedCode

theorem metalNew_usedHeap (hk : k < 1024) (roots : List MetalValue) :
    (usedHeap k).metalNew roots .arr = (some k, usedHeap (k + 1)) := by
  have hnone : (usedHeap k).firstUnmarked .arr = none := by
    apply find?_eq_none.mpr
    intro i hi
    have hmarked : (usedHeap k).marked ⟨.arr, i⟩ = true := decide_eq_true (mem_range.mp hi)
    simp [hmarked]
  have hgrow : ((usedHeap k).grow .arr).occupy ⟨.arr, k⟩ = usedHeap (k + 1) := by
    refine congrArg (MetalHeap.mk · (k + 1) _ 0) ?_
    funext i
    rw [Function.update_apply]
    split_ifs with hi
    · simp [hi]
    · have hlt : i < k ↔ i < k + 1 := by omega
      simp [usedHeap, MetalHeap.grow, hlt]
  rw [metalNew_eq, hnone, ← hgrow]
  exact if_neg (not_le.mpr hk)

theorem tracedStep_array (host : NativeHost) (log : List SlotAllocation) (hk : k < 1024)
    (hn : n < metalStackSize) (hi : i < 4092) (hop : i = 0 ∨ i % 4 = 3) :
    tracedStep host (crowdedAt i n v k, log) =
      some (true, crowdedAt (i + 3) (n + 1) (Function.update v n (.ofInt .arr k)) (k + 1),
        log ++ [⟨⟨.arr, k⟩, crowdedAt (i + 3) n v k, []⟩]) := by
  have hcode : OpCode.ofByte ((crowdedAt i n v k).codeByte i) = some .array := by
    rw [codeByte_crowdedAt (by omega), crowdedByte, if_pos (by omega), if_pos hop]
    rfl
  have hzero (j : ℕ) (hj : j = 1 ∨ j = 2) : crowdedByte (i + j) = 0 := by
    rw [crowdedByte, if_pos (by omega), if_neg (by omega), if_neg (by omega)]
  have hread : readU16 (crowdedAt (i + 1) n v k) = some (0, crowdedAt (i + 3) n v k) := by
    rw [readU16_of_inCode (s := crowdedAt (i + 1) n v k) (inCode_crowdedAt (by omega))
      (inCode_crowdedAt (j := i + 2) (by omega))]
    change some ((crowdedAt (i + 1) n v k).codeByte (i + 1 : ℕ) * 256 +
      (crowdedAt (i + 1) n v k).codeByte (i + 2 : ℕ), crowdedAt (i + 3) n v k) = _
    rw [codeByte_crowdedAt (by omega), codeByte_crowdedAt (by omega), hzero 1 (.inl rfl),
      hzero 2 (.inr rfl)]
    rfl
  rw [tracedStep_run rfl rfl (inCode_crowdedAt (by omega)) hcode]
  change tracedArray (crowdedAt (i + 1) n v k, log) = _
  unfold tracedArray
  rw [run_bind_of (run_untraced hread), run_bind_of (tracedNew_run (metalNew_usedHeap hk _))]
  apply run_untraced
  rw [run_get_bind]
  exact run_bind_of (push_run (s := crowdedAt (i + 3) n v (k + 1)) hn _) _

theorem tracedStep_pop (host : NativeHost) (log : List SlotAllocation)
    (hn : n < metalStackSize) (hi : 3 < i ∧ i < 4095) (hop : i % 4 = 2) :
    tracedStep host (crowdedAt i (n + 1) v k, log) = some (true, crowdedAt (i + 1) n v k, log) := by
  have hcode : OpCode.ofByte ((crowdedAt i (n + 1) v k).codeByte i) = some .popValue := by
    rw [codeByte_crowdedAt (by omega), crowdedByte, if_pos hi.2, if_neg (by omega),
      if_pos ⟨hi.1, hop⟩]
    rfl
  rw [tracedStep_run rfl rfl (inCode_crowdedAt (by omega)) hcode]
  apply run_untraced
  have hpop := pop_of_pos (s := crowdedAt (i + 1) (n + 1) v k) (Nat.succ_pos n) hn
  change (goOn (do let _ ← pop)) (crowdedAt (i + 1) (n + 1) v k) = _
  unfold goOn
  rw [run_bind_of (run_bind_of hpop _)]
  rfl

def firstArray : ℕ → MetalValue := Function.update (fun _ => {}) 0 (.ofInt .arr 0)

def crowdedStack : ℕ → ℕ → MetalValue
  | 0 => firstArray
  | k + 1 => Function.update firstArray 1 (.ofInt .arr (k + 1 : ℕ))

def crowdedLog (k : ℕ) : List SlotAllocation :=
  ⟨⟨.arr, 0⟩, crowdedAt 3 0 (fun _ => {}) 0, []⟩ ::
    (range k).map fun i =>
      ⟨⟨.arr, i + 1⟩, crowdedAt (4 * i + 6) 1 (crowdedStack i) (i + 1), []⟩

theorem tracedRun_crowded (host : NativeHost) (hk : k ≤ 1023) :
    tracedRun (replicate (2 * k + 1) host) (crowdedAt 0 0 (fun _ => {}) 0, []) =
      some (crowdedAt (4 * k + 3) 1 (crowdedStack k) (k + 1), crowdedLog k) := by
  induction k with
  | zero =>
    have hstep := tracedStep_array (v := fun _ => {}) host [] (k := 0) (n := 0) (i := 0)
      (by decide) (by decide) (by decide) (.inl rfl)
    exact congrArg (Option.bind · _) hstep
  | succ k ih =>
    have hstack : Function.update (crowdedStack k) 1 (.ofInt .arr (k + 1 : ℕ)) =
        crowdedStack (k + 1) := by
      cases k with
      | zero => rfl
      | succ k => exact Function.update_idem _ _ _
    have harray := tracedStep_array (v := crowdedStack k) host (crowdedLog k) (k := k + 1)
      (n := 1) (i := 4 * k + 3) (by omega) (by decide) (by omega) (.inr (by omega))
    have hpop := tracedStep_pop (v := crowdedStack (k + 1)) host (crowdedLog (k + 1))
      (k := k + 2) (n := 1) (i := 4 * k + 6) (by decide) (by omega) (by omega)
    have hlog : crowdedLog (k + 1) = crowdedLog k ++
        [⟨⟨.arr, k + 1⟩, crowdedAt (4 * k + 6) 1 (crowdedStack k) (k + 1), []⟩] := by
      unfold crowdedLog
      rw [range_succ, map_append]
      rfl
    rw [hstack, ← hlog] at harray
    have hlen : 2 * (k + 1) + 1 = 2 * k + 1 + 1 + 1 := by ring
    rw [hlen, replicate_succ', replicate_succ', tracedRun_append, tracedRun_append,
      ih (by omega), bind_some]
    unfold tracedRun
    rw [harray]
    exact congrArg (Option.bind · _) hpop

set_option maxRecDepth 100000 in
theorem slice_result_reuses_operand : (tracedRun (replicate 3 plainHost)
      (crowdedAt 4095 1 (crowdedStack 1023) 1024, crowdedLog 1023)).any (fun t => t.2.any fun a =>
        a.slot = ⟨.arr, 0⟩ ∧ a.held.head? = some (.ofInt .arr (0 : ℕ))) = true := by
  decide +kernel

/-- The slot of the array that a slice has popped is returned for its result. -/
theorem slice_operand_collected : ∃ (vm : MetalVM) (hosts : List NativeHost)
    (t : MetalVM × List SlotAllocation),
    vm.Fresh ∧ tracedRun hosts (vm, []) = some t ∧ ∃ a ∈ t.2, a.StillHeld := by
  have hfill := tracedRun_crowded plainHost (k := 1023) le_rfl
  obtain ⟨t, hlast, hany⟩ := (any_eq_true _ _).mp slice_result_reuses_operand
  obtain ⟨a, ha, hslot⟩ := any_eq_true.mp hany
  obtain ⟨hslot, hhead⟩ := of_decide_eq_true hslot
  have hheld : MetalValue.ofInt .arr (0 : ℕ) ∈ a.vm.roots ++ a.held :=
    mem_append_right _ (mem_of_mem_head? hhead)
  refine ⟨crowdedVm, replicate 2047 plainHost ++ replicate 3 plainHost, t,
    fresh_program _ _, ?_, a, ha, _, hheld, _, ref_ofInt .arr (by decide), ?_⟩
  · rw [tracedRun_append]
    exact (congrArg (Option.bind · _) hfill).trans hlast
  · rw [hslot]

end MetalVM
end SageOS
