import SageOS.SgvmFunctions

/-!
# Bounds safety of the loader

Loading stores interned strings, the amount of heap used and the function table; every part `g` of
the machine that does not depend on these is as before. The loader stays inside the file and
records only parts of it when no position that it comes to wraps, every code length that it accepts
is meant as written and no pool that it keeps is cut short. For the files it accepts this is also
necessary.
-/
namespace SageOS
open List Option
namespace MetalVM
open Checked
variable {γ : Type} {g : MetalVM → γ}

theorem fixes_dataAt (i : ℤ) : Fixes g (dataAt i) :=
  Fixes.require.bind fun _ => Fixes.get.bind fun _ => .pure _

theorem fixes_readLe (n : ℕ) (pos : ℤ) : Fixes g (readLe n pos) := by
  induction n generalizing pos with
  | zero => exact .pure 0
  | succ n ih => exact (fixes_dataAt pos).bind fun _ => (ih _).bind fun _ => .pure _

theorem fixes_readBytes (n : ℕ) (pos : ℤ) : Fixes g (readBytes n pos) := by
  induction n generalizing pos with
  | zero => exact .pure []
  | succ n ih => exact (fixes_dataAt pos).bind fun _ => (ih _).bind fun _ => .pure _

theorem fixes_loadCode (length pos : ℤ) : Fixes g (loadCode length pos) :=
  .ite (.pure _) ((fixes_readLe 4 pos).bind fun _ => .ite (.pure _) (.pure _))

theorem fixes_loadParams (length : ℤ) (n : ℕ) (pos : ℤ) : Fixes g (loadParams length n pos) := by
  induction n generalizing pos with
  | zero => exact .pure _
  | succ n ih =>
    exact .ite (.pure _) ((fixes_readLe 4 pos).bind fun _ => (ih _).bind fun _ => .pure _)

section
variable (hstr : ∀ vm strings, g { vm with strings := strings } = g vm)

include hstr

theorem fixes_mvStr (s : Bytes) : Fixes g (mvStr s) :=
  Fixes.get.bind fun _ => Fixes.bind (.modify fun _ => hstr _ _) fun _ => .pure _

theorem fixes_loadConst (length pos : ℤ) : Fixes g (loadConst length pos) :=
  .ite (.pure _) ((fixes_dataAt pos).bind fun _ =>
    .ite (.ite (.pure _) ((fixes_readLe 8 _).bind fun _ => .pure _))
      (.ite (.ite (.pure _) ((fixes_readLe 2 _).bind fun _ =>
        .ite (.pure _) ((fixes_readBytes _ _).bind fun _ =>
          (fixes_mvStr hstr _).bind fun _ => .pure _))) (.pure _)))

theorem fixes_loadConsts (length : ℤ) (n : ℕ) (pos : ℤ) : Fixes g (loadConsts length n pos) := by
  induction n generalizing pos with
  | zero => exact .pure _
  | succ n ih =>
    refine (fixes_loadConst hstr length pos).bind fun r => ?_
    cases r.1 with
    | none => exact .pure _
    | some v => exact (ih _).bind fun _ => .pure _

theorem fixes_loadConstPool (length pos : ℤ) (max : ℕ) : Fixes g (loadConstPool length pos max) :=
  .ite (.pure _) ((fixes_readLe 2 pos).bind fun _ =>
    (fixes_loadConsts hstr length _ _).bind fun _ => .pure _)

variable (hheap : ∀ vm used, g { vm with heapUsed := used } = g vm)

include hheap

theorem fixes_loadFnPool (length pos : ℤ) : Fixes g (loadFnPool length pos) :=
  .ite (.pure _) ((fixes_readLe 2 pos).bind fun _ => Fixes.get.bind fun _ =>
    .ite (.pure _) ((fixes_loadConstPool hstr length pos _).bind fun _ =>
      Fixes.bind (.modify fun _ => hheap _ _) fun _ => .pure _))

theorem fixes_loadFunction (length pos : ℤ) : Fixes g (loadFunction length pos) := by
  refine .ite (.pure _) ((fixes_readLe 2 pos).bind fun _ =>
    .ite (.pure _) ((fixes_loadParams length _ _).bind fun r₁ => ?_))
  cases r₁ with
  | none => exact .pure _
  | some r₁ =>
    refine (fixes_loadFnPool hstr hheap length _).bind fun r₂ => ?_
    cases r₂ with
    | none => exact .pure _
    | some r₂ =>
      refine (fixes_loadCode length _).bind fun r₃ => ?_
      cases r₃ with
      | none => exact .pure _
      | some r₃ => exact .pure _

theorem fixes_loadFunctions (length : ℤ) (n : ℕ) (pos : ℤ) :
    Fixes g (loadFunctions length n pos) := by
  induction n generalizing pos with
  | zero => exact .pure _
  | succ n ih =>
    refine (fixes_loadFunction hstr hheap length pos).bind fun r => ?_
    cases r with
    | none => exact .pure _
    | some r => exact (ih _).bind fun _ => .pure _

theorem fixes_loadFnTable (htab : ∀ vm n fns, g { vm with fnCount := n, functions := fns } = g vm)
    (length pos : ℤ) : Fixes g (loadFnTable length pos) := by
  refine .ite (.pure _) ((fixes_readLe 2 pos).bind fun _ =>
    .ite (.pure _) ((fixes_loadFunctions hstr hheap length _ _).bind fun r => ?_))
  cases r with
  | none => exact .pure _
  | some fns => exact Fixes.bind (.modify fun _ => htab _ _ _) fun _ => .pure _

end
end MetalVM

namespace MetalVM
open Checked
variable {f : SgvmFile} {vm : MetalVM}

/-- What the loader promises: it reads inside the file, and a file it accepts gives code and
constants that exist in it. -/
def LoadsInBounds (f : SgvmFile) : Prop :=
  ∃ b vm, metalVmLoadBinary f metalVmInit = some (b, vm) ∧
    (b = true → CodeRefIn f.data vm.code ∧
      vm.constants.count ≤ vm.constants.decoded.length ∧
      ∀ i < vm.fnCount, FunctionIn f.data (vm.functions i))

def Accepts (f : SgvmFile) : Prop := ∃ vm, metalVmLoadBinary f metalVmInit = some (true, vm)

def withImage (f : SgvmFile) : MetalVM := { metalVmInit with image := f.data }

theorem metalVmLoadBinary_run (f : SgvmFile) : metalVmLoadBinary f metalVmInit =
    if f.HeaderOk then loadBody f.len (withImage f) else some (false, withImage f) := by
  have himg : (withImage f).image = f.data := rfl
  unfold metalVmLoadBinary
  rw [run_modify_bind, run_ite]
  by_cases hshort : f.data.length < 9
  · rw [if_pos hshort, if_neg fun h : f.HeaderOk => absurd h.1 (not_le.mpr hshort)]
    rfl
  have hlen : 9 ≤ f.len := not_lt.mp hshort
  have hmagic := readBytes_run (n := 4) (p := 0) himg (by omega)
  rw [drop_zero] at hmagic
  rw [if_neg hshort]
  refine (run_bind_of hmagic _).trans ?_
  by_cases hm : f.data.take 4 = bytes "SGVM"
  · rw [if_neg (not_not.mpr hm)]
    have hversion := dataAt_run (p := 4) himg (by omega)
    refine (run_bind_of hversion _).trans ?_
    by_cases hv : f.byteAt 4 = 2
    · rw [if_neg (not_not.mpr hv), if_pos (show f.HeaderOk from ⟨hlen, hm, hv⟩)]
      rfl
    · rw [if_pos hv, if_neg fun h : f.HeaderOk => hv h.2.2]
      rfl
  · rw [if_pos hm, if_neg fun h : f.HeaderOk => hm h.2.1]
    rfl

theorem loadBody_run (h5 : 5 ≤ f.len) (hadds : f.PoolAdds 5 ∧ f.mainCode + 4 < 2 ^ 31) :
    ∃ pool strings, pool.count = min (f.poolCount 5) metalConstPool ∧
      pool.decoded.length = min metalConstPool (f.poolComplete 5) ∧ ConstPool.Plain pool ∧
      loadBody f.len (withImage f) = match codeAfter f f.mainCode with
        | none => some (false, { withImage f with strings := strings, constants := pool })
        | some (code, pos) => loadFnTable f.len pos
            { withImage f with strings := strings, constants := pool, code := code, ip := 0 } := by
  obtain ⟨⟨pool, q⟩, _, hrun, ⟨strings, rfl⟩, rfl, hcount, hdecoded, hplain⟩ :=
    (reads_loadConstPool metalConstPool (show (withImage f).image = f.data from rfl) h5).result
      hadds.1
  have himg : MetalVM.image { withImage f with strings := strings, constants := pool } = f.data :=
    rfl
  obtain ⟨_, _, hcode, rfl, rfl⟩ := (reads_loadCode himg (f.poolEnd_le h5)).result hadds.2
  refine ⟨pool, strings, hcount, hdecoded, hplain, (run_bind_of hrun _).trans ?_⟩
  rw [run_modify_bind]
  refine (run_bind_of hcode _).trans ?_
  unfold SgvmFile.mainCode
  cases codeAfter f (f.poolEnd 5) with
  | none => rfl
  | some r => rfl

theorem adds_of_loadBody (h5 : 5 ≤ f.len) {b : Bool} {vm' : MetalVM}
    (h : loadBody f.len (withImage f) = some (b, vm')) :
    f.PoolAdds 5 ∧ f.mainCode + 4 < 2 ^ 31 := by
  obtain ⟨⟨pool, q⟩, vm₁, hpool, h⟩ := exists_of_run_bind h
  have hstart : (withImage f).image = f.data := rfl
  obtain ⟨hadds, ⟨strings, rfl⟩, rfl, -⟩ :=
    (reads_loadConstPool metalConstPool hstart h5).of_some hpool
  rw [run_modify_bind] at h
  obtain ⟨r, vm₂, hcode, -⟩ := exists_of_run_bind h
  have himg : MetalVM.image { withImage f with strings := strings, constants := pool } = f.data :=
    rfl
  exact ⟨hadds, ((reads_loadCode himg (f.poolEnd_le h5)).of_some hcode).1⟩

variable {p : ℕ}

theorem loadFnTable_run (himg : vm.image = f.data) (hadd : p + 2 < 2 ^ 31) :
    loadFnTable f.len p vm =
      if f.len < p + 2 then some (true, vm)
      else if metalPoolMax < f.leAt 2 p then some (false, vm)
      else (loadFunctions f.len (f.leAt 2 p) (p + 2 : ℕ) vm).map fun r => match r.1 with
        | none => (false, r.2)
        | some fns => (true, { r.2 with
            fnCount := f.leAt 2 p
            functions := fun i => fns.getD i (r.2.functions i) }) := by
  have h2 : addInt p 2 = (p + 2 : ℕ) := addInt_nat (n := 2) hadd
  unfold loadFnTable
  rw [run_ite, h2]
  by_cases hcut : f.len < p + 2
  · rw [if_pos (Nat.cast_lt.mpr hcut), if_pos hcut]
    rfl
  rw [if_neg (mt Nat.cast_lt.mp hcut), if_neg hcut, run_bind_of (readLe_run himg (by omega)),
    run_ite]
  split_ifs with hmany
  · rfl
  · change (loadFunctions f.len (f.leAt 2 p) (p + 2 : ℕ) vm).bind _ = _
    cases loadFunctions f.len (f.leAt 2 p) (p + 2 : ℕ) vm with
    | none => rfl
    | some r =>
      obtain ⟨fns, vm₁⟩ := r
      cases fns <;> rfl

theorem add_of_loadFnTable (himg : vm.image = f.data) (hp : p ≤ f.len) {b : Bool} {vm' : MetalVM}
    (h : loadFnTable f.len p vm = some (b, vm')) : p + 2 < 2 ^ 31 := by
  by_contra hwrap
  have hpass : ¬ (f.len : ℤ) < addInt p 2 := not_lt_addInt (n := 2) hp (by decide) hwrap
  unfold loadFnTable at h
  rw [run_ite, if_neg hpass] at h
  obtain ⟨w, vm₁, hread, -⟩ := exists_of_run_bind h
  have hle := le_of_read (fun _ _ => rfl) himg hp hread
  have hlen : f.len < 2 ^ 31 := f.length_lt
  omega

theorem functionIn_getD {fns : List MetalFunction} (hall : ∀ fn ∈ fns, FunctionIn f.data fn)
    {i : ℕ} (hi : i < fns.length) (d : MetalFunction) : FunctionIn f.data (fns.getD i d) := by
  rw [getD_eq_getElem?_getD, getElem?_eq_getElem hi]
  exact hall _ (getElem_mem hi)

theorem loadFnTable_inBounds (himg : vm.image = f.data) (hadd : p + 2 < 2 ^ 31)
    (hfresh : vm.fnCount = 0) (hplain : ∀ i, ConstPool.Plain (vm.functions i).constants)
    (hok : p + 2 ≤ f.len → f.leAt 2 p ≤ metalPoolMax →
      f.FunctionsOk (f.leAt 2 p) (p + 2) vm.heapUsed) :
    ∃ b strings used n fns, loadFnTable f.len p vm = some (b, { vm with
        strings := strings, heapUsed := used, fnCount := n, functions := fns }) ∧
      (b = true → (∀ i < n, FunctionIn f.data (fns i)) ∧
        ∀ i, ConstPool.Plain (fns i).constants) := by
  rw [loadFnTable_run himg hadd]
  split_ifs with hcut hmany
  · refine ⟨_, vm.strings, vm.heapUsed, _, _, rfl, fun _ => ⟨fun i hi => ?_, hplain⟩⟩
    rw [hfresh] at hi
    exact absurd hi (Nat.not_lt_zero i)
  · exact ⟨_, vm.strings, vm.heapUsed, _, _, rfl, nofun⟩
  · obtain ⟨r, strings, used, hrun, hr⟩ := loadFunctions_run (f.leAt 2 p) (p := p + 2) himg
      (by omega) (hok (by omega) (by omega))
    rw [hrun]
    cases r with
    | none => exact ⟨_, _, _, _, _, rfl, nofun⟩
    | some fns =>
      obtain ⟨hlen, hall⟩ := hr fns rfl
      refine ⟨_, _, _, _, _, rfl, fun _ => ⟨fun i hi =>
        functionIn_getD (fun fn hfn => (hall fn hfn).1) (hlen ▸ hi) _, fun i => ?_⟩⟩
      rw [getD_eq_getElem?_getD]
      cases hi : fns[i]? with
      | none => exact hplain i
      | some fn => exact (hall fn (mem_of_getElem? hi)).2

theorem functionsOk_of_loadFnTable {vm' : MetalVM} (himg : vm.image = f.data)
    (hadd : p + 2 < 2 ^ 31) (hrun : loadFnTable f.len p vm = some (true, vm'))
    (hall : ∀ i < vm'.fnCount, FunctionIn f.data (vm'.functions i)) (h2 : p + 2 ≤ f.len)
    (hcount : f.leAt 2 p ≤ metalPoolMax) :
    f.FunctionsOk (f.leAt 2 p) (p + 2) vm.heapUsed := by
  rw [loadFnTable_run himg hadd, if_neg (by omega), if_neg (by omega)] at hrun
  obtain ⟨⟨fns, vm₁⟩, hfns, hlast⟩ := map_eq_some_iff.mp hrun
  cases fns with
  | none => cases hlast
  | some fns =>
    obtain ⟨-, rfl⟩ := Prod.mk.inj hlast
    have hlen := length_of_loadFunctions hfns
    refine functionsOk_of_loadFunctions _ himg h2 hfns fun fn hfn => ?_
    obtain ⟨i, hi, rfl⟩ := getElem_of_mem hfn
    have hin := hall i (by dsimp only; omega)
    dsimp only at hin
    rwa [getD_eq_getElem?_getD, getElem?_eq_getElem hi, getD_some] at hin

theorem plain_empty : ConstPool.Plain {} := fun _ hv => absurd hv not_mem_nil

/-- What a file with a good layout puts into the machine if it is accepted. -/
theorem load_of_imageOk (hok : f.ImageOk) :
    ∃ b vm, metalVmLoadBinary f metalVmInit = some (b, vm) ∧
      (b = true → ∃ pool strings code used n fns, vm = { withImage f with
          strings := strings, constants := pool, code := code, ip := 0
          heapUsed := used, fnCount := n, functions := fns } ∧
        CodeRefIn f.data code ∧ pool.count ≤ pool.decoded.length ∧
        (∀ i < n, FunctionIn f.data (fns i)) ∧
        ConstPool.Plain pool ∧ ∀ i, ConstPool.Plain (fns i).constants) := by
  rw [metalVmLoadBinary_run]
  split_ifs with hheader
  · obtain ⟨hadds, hcodeOk, hrest⟩ := hok hheader
    obtain ⟨pool, strings, hcount, hdecoded, hplain, hbody⟩ :=
      loadBody_run (le_trans (by decide) hheader.1) hadds
    rw [hbody]
    cases hcode : codeAfter f f.mainCode with
    | none => exact ⟨_, _, rfl, nofun⟩
    | some r =>
      obtain ⟨code, q⟩ := r
      obtain ⟨hin, hfits, rfl⟩ := codeAfter_of_codeOk hcodeOk hcode
      obtain ⟨hpool, hadd, htable⟩ := hrest hfits
      have himg : MetalVM.image
          { withImage f with strings := strings, constants := pool, code := code, ip := 0 } =
          f.data := rfl
      obtain ⟨b, strings', used, n, fns, hrun, hfns⟩ :=
        loadFnTable_inBounds himg hadd rfl (fun _ => plain_empty) htable
      refine ⟨b, _, hrun, fun hb =>
        ⟨pool, strings', code, used, n, fns, rfl, hin, ?_, (hfns hb).1, hplain, (hfns hb).2⟩⟩
      unfold SgvmFile.PoolOk at hpool
      omega
  · exact ⟨_, _, rfl, nofun⟩

theorem loadsInBounds_of_imageOk (hok : f.ImageOk) : LoadsInBounds f := by
  obtain ⟨b, vm, hload, hvm⟩ := load_of_imageOk hok
  refine ⟨b, vm, hload, fun hb => ?_⟩
  obtain ⟨_, _, _, _, _, _, rfl, hcode, hpool, hfns, -⟩ := hvm hb
  exact ⟨hcode, hpool, hfns⟩

theorem imageOk_of_loadsInBounds (haccept : Accepts f) (h : LoadsInBounds f) : f.ImageOk := by
  intro hheader
  obtain ⟨vm, hvm⟩ := haccept
  obtain ⟨b, vm', hrun, hgood⟩ := h
  obtain ⟨rfl, rfl⟩ := Prod.mk.inj (some.inj (hvm.symm.trans hrun))
  obtain ⟨hcodeIn, hconsts, hfns⟩ := hgood rfl
  have h5 : 5 ≤ f.len := le_trans (by decide) hheader.1
  rw [metalVmLoadBinary_run, if_pos hheader] at hvm
  have hadds := adds_of_loadBody h5 hvm
  obtain ⟨pool, strings, hcount, hdecoded, -, hbody⟩ := loadBody_run h5 hadds
  rw [hbody] at hvm
  cases hcode : codeAfter f f.mainCode with
  | none =>
    rw [hcode] at hvm
    cases hvm
  | some r =>
    obtain ⟨code, q⟩ := r
    rw [hcode] at hvm
    obtain ⟨hcode', hconst'⟩ := Prod.mk.inj (fixes_loadFnTable
      (g := fun vm => (vm.code, vm.constants)) (fun _ _ => rfl) (fun _ _ => rfl)
      (fun _ _ _ => rfl) _ _ _ _ _ hvm)
    rw [hcode'] at hcodeIn
    rw [hconst'] at hconsts
    have hcodeOk := codeOk_of_codeAfter hcode hcodeIn
    obtain ⟨-, hfits, rfl⟩ := codeAfter_of_codeOk hcodeOk hcode
    have hadd : f.fnTable + 2 < 2 ^ 31 := add_of_loadFnTable rfl hfits.2 hvm
    refine ⟨hadds, hcodeOk, fun _ => ⟨?_, hadd, fun h2 hmany => ?_⟩⟩
    · unfold SgvmFile.PoolOk
      dsimp only at hconsts
      omega
    · exact functionsOk_of_loadFnTable rfl hadd hvm hfns h2 hmany

/-- The loader keeps its promise for every file with a good layout, and among the files that it
accepts for no others. -/
theorem loadsInBounds_of_layout (f : SgvmFile) :
    (f.ImageOk → LoadsInBounds f) ∧ (Accepts f → (LoadsInBounds f ↔ f.ImageOk)) :=
  ⟨loadsInBounds_of_imageOk, fun haccept =>
    ⟨imageOk_of_loadsInBounds haccept, loadsInBounds_of_imageOk⟩⟩

/-- A function `f` of one parameter `x` is called in an endless loop with a global `x`. -/
def callLoopFile : SgvmFile :=
  ⟨bytes "SGVM" ++ [2, 3, 0, 2, 1, 0, 102, 2, 1, 0, 120, 1, 0, 0, 0, 0, 0, 0, 0, 0,
    23, 0, 0, 0, 8, 0, 0, 0, 0, 0, 0, 2, 6, 0, 1, 5, 0, 0, 5, 0, 1, 36, 1, 4, 50, 0, 12,
    1, 0, 1, 0, 0x87, 0x50, 0x0C, 0xFD, 1, 0, 2, 1, 0, 120, 4, 0, 0, 0, 5, 0, 0, 43],
    by decide⟩

theorem callLoopFile_loads : ((metalVmLoadBinary callLoopFile metalVmInit).map fun r =>
      (r.1, r.2.constants.count, r.2.fnCount)) = some (true, 3, 1) ∧
    callLoopFile.ImageOk ∧ LoadsInBounds callLoopFile := by
  have hok : callLoopFile.ImageOk := by decide +kernel
  exact ⟨by decide +kernel, hok, (loadsInBounds_of_layout callLoopFile).1 hok⟩

def negativeCodeFile : SgvmFile := ⟨bytes "SGVM" ++ [2, 0, 0, 0xEC, 0xFF, 0xFF, 0xFF], by decide⟩

/-- One number is declared, and half of it is the empty main code. -/
def cutPoolFile : SgvmFile := ⟨bytes "SGVM" ++ [2, 1, 0, 1, 0, 0, 0, 0], by decide⟩

/-- The first file makes the loader read before its start; the second is accepted with a constant
that was never stored. -/
theorem bad_files_load_out_of_bounds :
    ¬ LoadsInBounds negativeCodeFile ∧ Accepts cutPoolFile ∧ ¬ LoadsInBounds cutPoolFile := by
  have hcut : ((metalVmLoadBinary cutPoolFile metalVmInit).map fun r =>
      (r.1, r.2.constants)) = some (true, ⟨[], 1⟩) := by
    decide +kernel
  obtain ⟨⟨b, vm⟩, hrun, hr⟩ := map_eq_some_iff.mp hcut
  obtain ⟨rfl, hconsts⟩ := Prod.mk.inj hr
  refine ⟨?_, ⟨vm, hrun⟩, ?_⟩
  · rintro ⟨b, vm, hload, -⟩
    cases hload
  · rintro ⟨b, vm', hload, hgood⟩
    obtain ⟨rfl, rfl⟩ := Prod.mk.inj (some.inj (hrun.symm.trans hload))
    have hle := (hgood rfl).2.1
    rw [hconsts] at hle
    exact absurd hle (by decide)

end MetalVM
end SageOS
