import SageOS.MetalAllocation
import SageOS.MetalStep

/-!
# Allocations of a run

A C function is the sequence of calls that it makes into the machine, and it may store and return
only values that it was given or has allocated. Instructions and functions are run once more with a
log: every allocation is written down with the machine it was made in and the values that the
instruction or function holds at that moment. Without the log these are the steps of the machine.
-/
namespace SageOS

inductive NativeProgram
  | ret (v : MetalValue)
  | alloc (kind : PoolKind) (rest : Option ℕ → NativeProgram)
  | arrayPush (arr : ℤ) (v : MetalValue) (rest : NativeProgram)
  | dictSet (dict key : ℤ) (v : MetalValue) (rest : NativeProgram)
  | intern (s : Bytes) (rest : ℤ → NativeProgram)
  | stringGet (idx : ℤ) (rest : Bytes → NativeProgram)
  | arrayLen (arr : ℤ) (rest : ℤ → NativeProgram)
  | dictKeys (dict : ℤ) (rest : List ℤ → NativeProgram)

def PoolKind.type : PoolKind → MetalValueType
  | .arr => .arr
  | .dict => .dict

def newValues (kind : PoolKind) (slot : Option ℕ) : List MetalValue :=
  slot.toList.map fun i => .ofInt kind.type i

def MetalHeap.metalDictKeys (h : MetalHeap) (dict : ℤ) : List ℤ :=
  (MetalHeap.poolIndex dict).elim [] fun i => (h.dicts i).entries.map (·.1)

namespace NativeProgram

/-- The function stores and returns only values that it holds, or values without an object. -/
def Honest : List MetalValue → NativeProgram → Prop
  | held, .ret v => v ∈ held ∨ v.ref = none
  | held, .alloc kind rest => ∀ slot, (rest slot).Honest (newValues kind slot ++ held)
  | held, .arrayPush _ v rest => (v ∈ held ∨ v.ref = none) ∧ rest.Honest held
  | held, .dictSet _ _ v rest => (v ∈ held ∨ v.ref = none) ∧ rest.Honest held
  | held, .intern _ rest => ∀ i, (rest i).Honest held
  | held, .stringGet _ rest => ∀ s, (rest s).Honest held
  | held, .arrayLen _ rest => ∀ n, (rest n).Honest held
  | held, .dictKeys _ rest => ∀ ks, (rest ks).Honest held

open MetalVM in
def run : NativeProgram → MetalVM → MetalValue × MetalVM
  | .ret v, vm => (v, vm)
  | .alloc kind rest, vm =>
    let r := vm.heap.metalNew vm.roots kind
    (rest r.1).run { vm with heap := r.2 }
  | .arrayPush arr v rest, vm => rest.run { vm with heap := vm.heap.metalArrayPush arr v }
  | .dictSet dict key v rest, vm => rest.run { vm with heap := vm.heap.metalDictSet dict key v }
  | .intern s rest, vm =>
    let r := metalStringIntern vm.strings s
    (rest r.1).run { vm with strings := r.2 }
  | .stringGet idx rest, vm => (rest (metalStringGet vm.strings idx)).run vm
  | .arrayLen arr rest, vm => (rest (vm.heap.metalArrayLen arr)).run vm
  | .dictKeys dict rest, vm => (rest (vm.heap.metalDictKeys dict)).run vm

end NativeProgram

/-- A C function that can be registered. -/
structure Native where
  body : List MetalValue → NativeProgram
  honest : ∀ args, (body args).Honest args

structure NativeHost where
  double : DoubleOps
  native : ℕ → Native

def NativeHost.toHost (host : NativeHost) : MetalHost :=
  ⟨host.double, fun id args => ((host.native id).body args).run⟩

/-- A slot that was returned, the machine at that time and the values held outside of it. -/
structure SlotAllocation where
  slot : MetalRef
  vm : MetalVM
  held : List MetalValue

/-- The slot belongs to an object that is still in use. -/
def SlotAllocation.StillHeld (a : SlotAllocation) : Prop :=
  a.vm.heap.Reached (a.vm.roots ++ a.held) a.slot

namespace MetalVM
open Checked
variable {α β : Type}

abbrev TracedRun (α : Type) := Checked (MetalVM × List SlotAllocation) α

def untraced (m : Run α) : TracedRun α := fun t => (m t.1).map fun r => (r.1, r.2, t.2)

def newObject : PoolKind → Run (Option ℕ)
  | .arr => newArray
  | .dict => newDict

def tracedNew (held : List MetalValue) (kind : PoolKind) : TracedRun (Option ℕ) := fun t =>
  (newObject kind t.1).map fun r =>
    (r.1, r.2, t.2 ++ r.1.toList.map fun i => ⟨⟨kind, i⟩, t.1, held⟩)

def tracedNative : List MetalValue → NativeProgram → TracedRun MetalValue
  | _, .ret v => return v
  | held, .alloc kind rest => do
    let slot ← tracedNew held kind
    tracedNative (newValues kind slot ++ held) (rest slot)
  | held, .arrayPush arr v rest => do
    untraced (onHeap fun h => h.metalArrayPush arr v)
    tracedNative held rest
  | held, .dictSet dict key v rest => do
    untraced (onHeap fun h => h.metalDictSet dict key v)
    tracedNative held rest
  | held, .intern s rest => fun t =>
    let r := metalStringIntern t.1.strings s
    tracedNative held (rest r.1) ({ t.1 with strings := r.2 }, t.2)
  | held, .stringGet idx rest => fun t =>
    tracedNative held (rest (metalStringGet t.1.strings idx)) t
  | held, .arrayLen arr rest => fun t => tracedNative held (rest (t.1.heap.metalArrayLen arr)) t
  | held, .dictKeys dict rest => fun t => tracedNative held (rest (t.1.heap.metalDictKeys dict)) t

variable (host : NativeHost)

def tracedSlice : TracedRun Bool := do
  let e ← untraced pop
  let s ← untraced pop
  let obj ← untraced pop
  let start := max (host.double.toInt s.bits) 0
  let stop := host.double.toInt e.bits
  match obj.type with
  | .arr =>
    match ← tracedNew [obj, s, e] .arr with
    | none => untraced (fail "array pool full")
    | some arr => untraced do
      let len := (← get).heap.metalArrayLen obj.int
      goOn do
        onHeap (copySlice arr obj.int start (min stop len))
        push (.ofInt .arr arr)
  | .str => untraced do
    let str ← stringAt obj.int
    let stop' := max (min stop str.length) start
    goOn do
      push (← mvStr ((str.drop start.toNat).take (stop' - start).toNat))
  | _ => untraced (goOn (push mvNil))

def tracedSplit (argc : ℕ) (receiver : MetalValue) (s : Bytes) : TracedRun Bool := do
  match ← tracedNew [receiver] .arr with
  | none => untraced (fail "method not found")
  | some arr => untraced do
    pushTokens arr (splitTokens (s.length + 1) s)
    finishMethod argc (.ofInt .arr arr)

def tracedCallMethod : TracedRun Bool := do
  let argc ← untraced readU8
  let nameIdx ← untraced readU16
  let method ← untraced (stringAt nameIdx)
  let t ← get
  let receiver ← untraced (stackAt (t.1.sp - argc - 1))
  match receiver.type with
  | .arr => untraced (arrayMethod host.toHost argc method receiver)
  | .str =>
    let s ← untraced (stringAt receiver.int)
    if method = bytes "split" then tracedSplit argc receiver s
    else untraced (stringMethod argc method receiver)
  | _ => untraced (fail "method not found")

def tracedCallNative (argc id : ℕ) : TracedRun Bool := do
  let args ← untraced (takeArgs argc)
  untraced (dropStack (argc + 1))
  let v ← tracedNative args ((host.native id).body args)
  untraced (goOn (push v))

def tracedCall : TracedRun Bool := do
  let argc ← untraced readU8
  let t ← get
  let callee ← untraced (stackAt (t.1.sp - argc - 1))
  match callee.type with
  | .str =>
    let hash := metalFnv1a (metalStringGet t.1.strings callee.int)
    match t.1.natives.find? (·.1 = hash) with
    | some entry => tracedCallNative host argc entry.2
    | none => untraced (fail "unsupported call target")
  | .fn =>
    if 0 ≤ callee.int ∧ callee.int < t.1.fnCount then
      untraced (callFunction argc (t.1.functions callee.int.toNat))
    else untraced (fail "unsupported call target")
  | _ => untraced (fail "unsupported call target")

def tracedArray : TracedRun Bool := do
  let count ← untraced readU16
  match ← tracedNew [] .arr with
  | none => untraced (fail "array pool full")
  | some arr => untraced do
    let vm ← get
    goOn do
      (List.range count).forM fun i => do
        let v ← stackAt (vm.sp - count + i)
        onHeap fun h => h.metalArrayPush arr v
      dropStack count
      push (.ofInt .arr arr)

def tracedDict : TracedRun Bool := do
  let count ← untraced readU16
  match ← tracedNew [] .dict with
  | none => untraced (fail "dict pool full")
  | some dict => untraced (goOn do
      (List.range count).forM fun _ => do
        let v ← pop
        let key ← pop
        onHeap fun h => if key.type = .str then h.metalDictSet dict key.int v else h
      push (.ofInt .dict dict))

/-- The instructions that allocate keep the log; the others cannot touch it. -/
def tracedExec : OpCode → TracedRun Bool
  | .slice => tracedSlice host
  | .callMethod => tracedCallMethod host
  | .call => tracedCall host
  | .array | .tuple => tracedArray
  | .dict => tracedDict
  | op => untraced (exec host.toHost op)

def tracedStep : TracedRun Bool := do
  let t ← get
  if t.1.halted ∨ t.1.error.isSome ∨ t.1.code.length ≤ t.1.ip then return false
  else
    let op ← untraced readU8
    let t ← get
    if t.1.error.isSome then return false
    else
      match OpCode.ofByte op with
      | some code => tracedExec host code
      | none => untraced (fail (unknownOpCode op))

/-- Without the log, `t` is the computation `m`. -/
def Erases (t : TracedRun α) (m : Run α) : Prop :=
  ∀ s, (t s).map (fun r => (r.1, r.2.1)) = m s.1

namespace Erases

theorem untraced (m : Run α) : Erases (untraced m) m := by
  intro s
  unfold MetalVM.untraced
  cases m s.1 <;> rfl

theorem bind {t : TracedRun α} {m : Run α} {f : α → TracedRun β} {g : α → Run β}
    (ht : Erases t m) (hf : ∀ a, Erases (f a) (g a)) : Erases (t >>= f) (m >>= g) := by
  intro s
  change ((t s).bind fun r => f r.1 r.2).map _ = (m s.1).bind fun r => g r.1 r.2
  rw [← ht s]
  cases t s with
  | none => rfl
  | some r => exact hf r.1 r.2

theorem get {f : MetalVM × List SlotAllocation → TracedRun β} {g : MetalVM → Run β}
    (hf : ∀ s, Erases (f s) (g s.1)) : Erases (MonadState.get >>= f) (MonadState.get >>= g) :=
  fun s => hf s s

theorem ite {c : Prop} [Decidable c] {t t' : TracedRun α} {m m' : Run α} (ht : Erases t m)
    (hf : Erases t' m') : Erases (if c then t else t') (if c then m else m') := by
  split_ifs
  · exact ht
  · exact hf

theorem tracedNew (held : List MetalValue) (kind : PoolKind) :
    Erases (tracedNew held kind) (newObject kind) := by
  intro s
  unfold MetalVM.tracedNew
  cases newObject kind s.1 <;> rfl

theorem tracedNative (p : NativeProgram) (held : List MetalValue) :
    Erases (tracedNative held p) fun vm => some (p.run vm) := by
  induction p generalizing held with
  | ret v => exact fun _ => rfl
  | alloc kind rest ih =>
    have hnew : Erases (MetalVM.tracedNew held kind) fun vm =>
        some ((vm.heap.metalNew vm.roots kind).1,
          { vm with heap := (vm.heap.metalNew vm.roots kind).2 }) := by
      intro s
      rw [tracedNew held kind s]
      cases kind <;> rfl
    exact bind hnew fun slot => ih slot _
  | arrayPush _ _ _ ih | dictSet _ _ _ _ ih => exact bind (untraced _) fun _ => ih held
  | intern _ _ ih | stringGet _ _ ih | arrayLen _ _ ih | dictKeys _ _ ih =>
    exact fun t => ih _ held _

theorem tracedSlice : Erases (tracedSlice host) (opSlice host.toHost) := by
  apply bind (untraced pop)
  intro e
  apply bind (untraced pop)
  intro s
  apply bind (untraced pop)
  intro obj
  cases obj.type with
  | arr =>
    apply bind (tracedNew _ .arr)
    intro slot
    cases slot <;> exact untraced _
  | nil | num | bool | str | dict | fn | ptr => exact untraced _

theorem tracedCallMethod : Erases (tracedCallMethod host) (opCallMethod host.toHost) := by
  apply bind (untraced readU8)
  intro argc
  apply bind (untraced readU16)
  intro nameIdx
  apply bind (untraced (stringAt nameIdx))
  intro method
  apply get
  intro t
  apply bind (untraced _)
  intro receiver
  cases receiver.type with
  | str =>
    dsimp only
    by_cases hsplit : method = bytes "split"
    · simp only [if_pos hsplit]
      unfold stringMethod
      simp only [if_pos hsplit]
      apply bind (untraced _)
      intro s
      apply bind (tracedNew _ .arr)
      intro slot
      cases slot <;> exact untraced _
    · simp only [if_neg hsplit]
      exact fun t => untraced _ t
  | nil | num | bool | arr | dict | fn | ptr => exact untraced _

theorem tracedCallNative (argc id : ℕ) :
    Erases (tracedCallNative host argc id) (callNative host.toHost argc id) := by
  unfold callNative goOn
  simp only [bind_assoc]
  apply bind (untraced (takeArgs argc))
  intro args
  apply bind (untraced (dropStack (argc + 1)))
  intro _
  exact bind (tracedNative ((host.native id).body args) args) fun v => untraced (goOn (push v))

theorem tracedCall : Erases (tracedCall host) (opCall host.toHost) := by
  apply bind (untraced readU8)
  intro argc
  apply get
  intro t
  apply bind (untraced _)
  intro callee
  cases callee.type with
  | str =>
    dsimp only
    cases t.1.natives.find? (·.1 = metalFnv1a (metalStringGet t.1.strings callee.int)) with
    | none => exact untraced _
    | some entry => exact tracedCallNative host argc entry.2
  | fn => exact ite (untraced _) (untraced _)
  | nil | num | bool | arr | dict | ptr => exact untraced _

theorem tracedArray : Erases tracedArray opArray := by
  apply bind (untraced readU16)
  intro count
  apply bind (tracedNew _ .arr)
  intro slot
  cases slot <;> exact untraced _

theorem tracedDict : Erases tracedDict opDict := by
  apply bind (untraced readU16)
  intro count
  apply bind (tracedNew _ .dict)
  intro slot
  cases slot <;> exact untraced _

theorem tracedExec (op : OpCode) : Erases (tracedExec host op) (exec host.toHost op) := by
  cases op with
  | slice => exact tracedSlice host
  | callMethod => exact tracedCallMethod host
  | call => exact tracedCall host
  | array | tuple => exact tracedArray
  | dict => exact tracedDict
  | _ => exact untraced _

end Erases

theorem tracedStep_erases : Erases (tracedStep host) (step host.toHost) := by
  apply Erases.get
  intro t
  apply Erases.ite (fun _ => rfl)
  apply Erases.bind (Erases.untraced readU8)
  intro op
  apply Erases.get
  intro t'
  apply Erases.ite (fun _ => rfl)
  cases OpCode.ofByte op with
  | none => exact Erases.untraced _
  | some code => exact Erases.tracedExec host code

end MetalVM
end SageOS
