import SageOS.MetalRun
import SageOS.SgvmSafety

/-!
# Runs of a loaded program

A successful load leaves the stack, the frames, the scopes and the natives of a fresh machine as
they are. When the code that it recorded lies in the file, the bounds invariant holds in the first
state, and with it in every state that is reached through instructions with good operands.
-/
namespace SageOS.MetalVM
open Option
open Checked
variable {host : MetalHost} {f : SgvmFile} {vm : MetalVM}

/-- The registers of the machine, which no part of the loader sets. -/
def registers (vm : MetalVM) : ℕ × ℕ × ℕ × List (UInt32 × ℕ) :=
  (vm.sp, vm.frameCount, vm.scopeDepth, vm.natives)

/-- The code that the load has recorded is part of the file. -/
def CodeInFile (f : SgvmFile) (vm : MetalVM) : Prop :=
  CodeRefIn f.data vm.code ∧ ∀ i < vm.fnCount, CodeRefIn f.data (vm.functions i).code

instance decidableCodeInFile (f : SgvmFile) (vm : MetalVM) : Decidable (CodeInFile f vm) :=
  inferInstanceAs (Decidable (_ ∧ ∀ i < vm.fnCount, _))

theorem loadBody_start {length : ℤ} {vm' : MetalVM} (h : loadBody length vm = some (true, vm')) :
    vm'.image = vm.image ∧ vm'.ip = 0 ∧ registers vm' = registers vm := by
  obtain ⟨main, vm₁, hpool, h₁⟩ := exists_of_run_bind h
  rw [run_modify_bind] at h₁
  obtain ⟨r, vm₂, hcode, h₂⟩ := exists_of_run_bind h₁
  have hpool' := fixes_loadConstPool (g := fun vm => (vm.image, registers vm)) (fun _ _ => rfl)
    _ _ _ _ _ _ hpool
  have hcode' := fixes_loadCode (g := fun vm => (vm.image, registers vm)) _ _ _ _ _ hcode
  cases r with
  | none => cases h₂
  | some r =>
    have htable := fixes_loadFnTable (g := fun vm => (vm.image, vm.ip, registers vm))
      (fun _ _ => rfl) (fun _ _ => rfl) (fun _ _ _ => rfl) _ _ _ _ _ h₂
    obtain ⟨himg, hrest⟩ := Prod.mk.inj htable
    obtain ⟨hip, hregs⟩ := Prod.mk.inj hrest
    obtain ⟨himg₁, hregs₁⟩ := Prod.mk.inj hpool'
    obtain ⟨himg₂, hregs₂⟩ := Prod.mk.inj hcode'
    exact ⟨himg.trans (himg₂.trans himg₁), hip, hregs.trans (hregs₂.trans hregs₁)⟩

theorem inv_of_load (hload : metalVmLoadBinary f metalVmInit = some (true, vm))
    (hcode : CodeInFile f vm) : Inv vm := by
  rw [metalVmLoadBinary_run] at hload
  split_ifs at hload with hheader
  · obtain ⟨himg, hip, hregs⟩ := loadBody_start hload
    obtain ⟨hsp, hrest⟩ := Prod.mk.inj hregs
    obtain ⟨hframes, hrest⟩ := Prod.mk.inj hrest
    obtain ⟨hscopes, hnatives⟩ := Prod.mk.inj hrest
    have himage : vm.image = f.data := himg
    exact {
      sp := hsp.trans_le (Nat.zero_le _)
      frameCount := hframes.trans_le (Nat.zero_le _)
      scopeDepth := hscopes.trans_lt (show 0 < metalEnvDepth by decide)
      ip := hip.ge
      code := by rw [himage]; exact hcode.1
      functions := by rw [himage]; exact hcode.2
      frames := by rw [hframes]; exact fun i hi => absurd hi (Nat.not_lt_zero i)
      natives := hnatives }
  · cases hload

/-- A run of a loaded program makes no access out of bounds, as long as the operands that are used
as indices without a check are good in the states met on the way. -/
theorem loaded_run_inBounds (host : MetalHost) (f : SgvmFile) (vm : MetalVM)
    (hload : metalVmLoadBinary f metalVmInit = some (true, vm)) (hcode : CodeInFile f vm) (n : ℕ)
    (hok : ∀ m < n, ∀ vm', runSteps host m vm = some vm' → StepOk vm') :
    ∃ vm', runSteps host n vm = some vm' ∧ Inv vm' :=
  runSteps_inv (inv_of_load hload hcode) hok

/-- A program of three bytes of code without constants and functions. -/
def threeByteFile (a b c : UInt8) : SgvmFile :=
  ⟨bytes "SGVM" ++ [2, 0, 0, 3, 0, 0, 0, a, b, c], by change 14 < 2 ^ 31; decide⟩

/-- A host without natives. -/
def idleHost : MetalHost := ⟨plainDoubles, fun _ _ vm => (mvNil, vm)⟩

theorem exists_load_of_map {α : Type} {r : α} {g : MetalVM → α}
    (h : ((metalVmLoadBinary f metalVmInit).map fun p => (p.1, g p.2)) = some (true, r)) :
    ∃ vm, metalVmLoadBinary f metalVmInit = some (true, vm) ∧ g vm = r := by
  obtain ⟨⟨b, vm⟩, hload, hr⟩ := map_eq_some_iff.mp h
  obtain ⟨rfl, hg⟩ := Prod.mk.inj hr
  exact ⟨vm, hload, hg⟩

/-- The second round of the loop enters the function once more. -/
theorem call_loop_run_inBounds :
    ∃ vm, metalVmLoadBinary callLoopFile metalVmInit = some (true, vm) ∧
      ∃ vm', runSteps idleHost 14 vm = some vm' ∧ Inv vm' := by
  obtain ⟨vm, hload, hvm⟩ := exists_load_of_map (f := callLoopFile) (r := true)
    (g := fun vm => decide (CodeInFile callLoopFile vm ∧
      ∀ m : ℕ, m < 14 → ∀ vm₁ ∈ runSteps idleHost m vm, StepOk vm₁)) (by decide +kernel)
  obtain ⟨hcode, hok⟩ := of_decide_eq_true hvm
  exact ⟨vm, hload, loaded_run_inBounds idleHost _ vm hload hcode 14 hok⟩

/-- Programs that load and make their first step leave the bounds: a call without a callee on the
stack, the name of a constant that does not exist, and a jump back before the code. -/
theorem malformed_programs_leave_bounds :
    (∃ vm, metalVmLoadBinary (threeByteFile 36 0 0xFF) metalVmInit = some (true, vm) ∧
      runSteps idleHost 1 vm = none) ∧
    (∃ vm, metalVmLoadBinary (threeByteFile 5 0 0) metalVmInit = some (true, vm) ∧
      runSteps idleHost 1 vm = none) ∧
    (∃ vm, metalVmLoadBinary (threeByteFile 50 0xFF 0xFF) metalVmInit = some (true, vm) ∧
      (runSteps idleHost 1 vm).map (·.ip) = some (-65532)) := by
  refine ⟨?_, ?_, exists_load_of_map (by decide)⟩
  · obtain ⟨vm, hload, hnone⟩ := exists_load_of_map (f := threeByteFile 36 0 0xFF) (r := true)
      (g := fun vm => (runSteps idleHost 1 vm).isNone) (by decide)
    exact ⟨vm, hload, isNone_iff_eq_none.mp hnone⟩
  · obtain ⟨vm, hload, hnone⟩ := exists_load_of_map (f := threeByteFile 5 0 0) (r := true)
      (g := fun vm => (runSteps idleHost 1 vm).isNone) (by decide)
    exact ⟨vm, hload, isNone_iff_eq_none.mp hnone⟩

end SageOS.MetalVM
