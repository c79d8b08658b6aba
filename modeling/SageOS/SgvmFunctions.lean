import SageOS.SgvmRead

/-!
# Reading the functions

The functions of an image follow each other, and each of them says where the next one begins. A
good layout leads through all of them inside the file; conversely, a table that was accepted and
whose functions all exist in the file has a good layout.
-/
namespace SageOS.MetalVM
open List Option
open Checked
variable {f : SgvmFile} {vm : MetalVM}
variable {p : ℕ}

theorem reads_loadParams (n : ℕ) (himg : vm.image = f.data) (hp : p ≤ f.len) :
    Reads (f.ParamsAdd n p) (loadParams f.len n p) vm fun r vm' => vm' = vm ∧
      (r = none → f.len < p + 4 * n) ∧
      ∀ hashes q, r = some (hashes, q) → q = (p + 4 * n : ℕ) ∧ p + 4 * n ≤ f.len := by
  induction n generalizing p with
  | zero =>
    refine .pure ⟨rfl, nofun, fun hashes q h => ?_⟩
    cases h
    exact ⟨rfl, hp⟩
  | succ n ih =>
    have hsum : p + 4 * (n + 1) = p + 4 + 4 * n := by omega
    unfold loadParams
    rw [hsum]
    refine Reads.cut (n := 4) himg hp (by decide) (fun _ => ⟨rfl, fun _ => by omega, nofun⟩)
      (fun hle => ?_)
    have hlen : f.len < 2 ^ 31 := f.length_lt
    have h4 : addInt p 4 = (p + 4 : ℕ) := addInt_nat (n := 4) (by omega)
    rw [h4]
    refine (ih hle).bind (B := True) ?_ (iff_of_eq (and_true _)).symm
    rintro r vm' ⟨rfl, hnone, hsome⟩
    refine .pure ⟨rfl, fun h => hnone (map_eq_none_iff.mp h), fun hashes q h => ?_⟩
    obtain ⟨⟨hashes', q'⟩, hr, he⟩ := map_eq_some_iff.mp h
    obtain ⟨-, rfl⟩ := Prod.mk.inj he
    exact hsome hashes' q' hr

/-- Only the interned strings and the amount of heap used are changed. -/
def FillsPool (vm vm' : MetalVM) (used : ℕ) : Prop :=
  ∃ strings, vm' = { vm with strings := strings, heapUsed := used }

theorem reads_loadFnPool (himg : vm.image = f.data) (hp : p ≤ f.len) :
    Reads (f.FnPoolAdds p vm.heapUsed) (loadFnPool f.len p) vm fun r vm' =>
      ∃ used, FillsPool vm vm' used ∧
        (p + 2 ≤ f.len ∧ vm.heapUsed + f.leAt 2 p * 16 ≤ metalHeapSize → r ≠ none) ∧
        ∀ pool q, r = some (pool, q) → p + 2 ≤ f.len ∧
          vm.heapUsed + f.leAt 2 p * 16 ≤ metalHeapSize ∧ q = f.poolEnd p ∧
          used = vm.heapUsed + f.poolCount p * 16 ∧
          pool.count = f.poolCount p ∧ pool.decoded.length = f.poolComplete p ∧
          ConstPool.Plain pool := by
  unfold loadFnPool
  refine Reads.cut (n := 2) himg hp (by decide)
    (fun _ => ⟨_, ⟨_, rfl⟩, fun h => absurd h.1 (by omega), nofun⟩) (fun hle => ?_)
  refine .after (show (get : Run MetalVM) vm = some (vm, vm) from rfl) ?_
  by_cases hfull : metalHeapSize < vm.heapUsed + f.leAt 2 p * 16
  · rw [if_pos hfull]
    exact (Reads.pure ⟨_, ⟨_, rfl⟩, fun h => absurd h.2 (by omega), nofun⟩).congr
      (iff_of_true (fun h => absurd h (by omega)) trivial)
  rw [if_neg hfull]
  have hpeek : f.poolCount p = f.leAt 2 p := if_neg (by omega)
  have hcomplete : f.poolComplete p ≤ f.poolCount p := (f.scanConsts_le _ (by omega)).1
  refine (reads_loadConstPool _ himg hp).bind (B := True) ?_
    ⟨fun h => ⟨h (by omega), trivial⟩, fun h _ => h.1⟩
  rintro ⟨pool, q⟩ vm' ⟨⟨strings, rfl⟩, rfl, hcount, hdecoded, hplain⟩
  dsimp only at hcount hdecoded
  refine .inl ⟨trivial, _, _, rfl, _, ⟨strings, rfl⟩, nofun, fun pool' q' h => ?_⟩
  cases h
  exact ⟨by omega, by omega, rfl, by dsimp only; omega, by omega, by omega, hplain⟩

theorem reads_loadFunction (himg : vm.image = f.data) (hp : p ≤ f.len) :
    Reads (f.FnAdds p vm.heapUsed) (loadFunction f.len p) vm fun r vm' =>
      ∃ used, FillsPool vm vm' used ∧ ∀ fn q, r = some (fn, q) → f.FnReached p vm.heapUsed ∧
        used = vm.heapUsed + f.poolCount (f.fnPool p) * 16 ∧
        fn.constants.count = f.poolCount (f.fnPool p) ∧
        fn.constants.decoded.length = f.poolComplete (f.fnPool p) ∧
        ConstPool.Plain fn.constants ∧
        codeAfter f (f.fnCode p) = some (fn.code, q) := by
  have hlen : f.len < 2 ^ 31 := f.length_lt
  unfold loadFunction
  refine Reads.cut (n := 2) himg hp (by decide) (fun _ => ⟨_, ⟨_, rfl⟩, nofun⟩) (fun hle => ?_)
  by_cases hparams : 8 < f.leAt 2 p
  · rw [if_pos hparams]
    exact (Reads.pure ⟨_, ⟨_, rfl⟩, nofun⟩).congr
      (iff_of_true (fun h => absurd h (by omega)) trivial)
  have h2 : addInt p 2 = (p + 2 : ℕ) := addInt_nat (n := 2) (by omega)
  rw [if_neg hparams, h2]
  refine (reads_loadParams _ himg hle).bind (B := f.fnPool p ≤ f.len →
      f.FnPoolAdds (f.fnPool p) vm.heapUsed ∧ (f.FnReached p vm.heapUsed → f.fnCode p + 4 < 2 ^ 31))
    ?_ (imp_iff_right (by omega))
  rintro r vm' ⟨rfl, hnone, hsome⟩
  cases r with
  | none =>
    exact (Reads.pure ⟨_, ⟨_, rfl⟩, nofun⟩).congr
      (iff_of_true (fun h => absurd (hnone rfl) (not_lt.mpr h)) trivial)
  | some r =>
    obtain ⟨hashes, q⟩ := r
    obtain ⟨rfl, hpool⟩ := hsome hashes q rfl
    refine (reads_loadFnPool (p := f.fnPool p) himg hpool).bind
      (B := f.FnReached p vm'.heapUsed → f.fnCode p + 4 < 2 ^ 31) ?_ (imp_iff_right hpool)
    rintro r vm₂ ⟨used, ⟨strings, rfl⟩, hreach, hsome₂⟩
    cases r with
    | none =>
      exact (Reads.pure ⟨used, ⟨strings, rfl⟩, nofun⟩).congr
        (iff_of_true (fun h => absurd rfl (hreach h.2.2)) trivial)
    | some r =>
      obtain ⟨pool, q⟩ := r
      obtain ⟨hpool₂, hheap, rfl, hused, hcount, hdecoded, hplain⟩ := hsome₂ pool q rfl
      have hreached : f.FnReached p vm'.heapUsed := ⟨hle, by omega, hpool₂, hheap⟩
      have himg₂ : MetalVM.image { vm' with strings := strings, heapUsed := used } = f.data := himg
      refine (reads_loadCode (p := f.fnCode p) himg₂ (f.poolEnd_le hpool)).bind (B := True) ?_
        ⟨fun h => ⟨h hreached, trivial⟩, fun h _ => h.1⟩
      rintro r vm₃ ⟨rfl, rfl⟩
      cases hcode : codeAfter f (f.fnCode p) with
      | none => exact .pure ⟨used, ⟨strings, rfl⟩, nofun⟩
      | some r =>
        refine .pure ⟨used, ⟨strings, rfl⟩, fun fn q h => ?_⟩
        cases h
        exact ⟨hreached, hused, hcount, hdecoded, hplain, rfl⟩

/-- The recorded code and constants of a function exist in the file. -/
def FunctionIn (image : Bytes) (fn : MetalFunction) : Prop :=
  CodeRefIn image fn.code ∧ fn.constants.count ≤ fn.constants.decoded.length

theorem loadFunctions_run (n : ℕ) (himg : vm.image = f.data)
    (hp : p ≤ f.len) (hok : f.FunctionsOk n p vm.heapUsed) :
    ∃ r strings used, loadFunctions f.len n p vm =
        some (r, { vm with strings := strings, heapUsed := used }) ∧
      ∀ fns, r = some fns → fns.length = n ∧
        ∀ fn ∈ fns, FunctionIn f.data fn ∧ ConstPool.Plain fn.constants := by
  induction n generalizing p vm with
  | zero =>
    refine ⟨_, vm.strings, vm.heapUsed, rfl, fun fns h => ?_⟩
    rw [← some.inj h]
    exact ⟨rfl, nofun⟩
  | succ n ih =>
    obtain ⟨r, _, hrun, used, ⟨strings, rfl⟩, hr⟩ := (reads_loadFunction himg hp).result hok.1
    unfold loadFunctions
    rw [run_bind_of hrun]
    cases r with
    | none => exact ⟨none, strings, used, rfl, nofun⟩
    | some r =>
      obtain ⟨fn, q⟩ := r
      obtain ⟨hreach, rfl, hcount, hdecoded, hplain, hcode⟩ := hr fn q rfl
      obtain ⟨hcodeOk, hnext⟩ := hok.2 hreach
      obtain ⟨hin, hfits, rfl⟩ := codeAfter_of_codeOk hcodeOk hcode
      obtain ⟨hpool, hrest⟩ := hnext hfits
      have himg' : MetalVM.image { vm with
          strings := strings, heapUsed := vm.heapUsed + f.poolCount (f.fnPool p) * 16 } =
          f.data := himg
      obtain ⟨r', strings', used', hrun', hr'⟩ := ih himg' hfits.2 hrest
      dsimp only
      rw [run_bind_of hrun']
      refine ⟨_, strings', used', rfl, fun fns h => ?_⟩
      obtain ⟨fns', hsome, rfl⟩ := map_eq_some_iff.mp h
      obtain ⟨hlen, hall⟩ := hr' fns' hsome
      refine ⟨by simp [hlen], fun g hg => ?_⟩
      rcases mem_cons.mp hg with rfl | hg
      · refine ⟨⟨hin, ?_⟩, hplain⟩
        unfold SgvmFile.PoolOk at hpool
        omega
      · exact hall g hg

theorem length_of_loadFunctions {length pos : ℤ} {n : ℕ} {fns : List MetalFunction}
    {vm' : MetalVM} (h : loadFunctions length n pos vm = some (some fns, vm')) :
    fns.length = n := by
  induction n generalizing pos vm fns vm' with
  | zero =>
    obtain ⟨hnil, -⟩ := Prod.mk.inj (some.inj h)
    rw [← some.inj hnil]
    rfl
  | succ n ih =>
    obtain ⟨r, vm₁, -, hnext⟩ := exists_of_run_bind h
    cases r with
    | none => cases hnext
    | some r =>
      obtain ⟨rest, vm₂, hrest, hlast⟩ := exists_of_run_bind hnext
      obtain ⟨hsome, -⟩ := Prod.mk.inj (some.inj hlast)
      obtain ⟨fns', rfl, rfl⟩ := map_eq_some_iff.mp hsome
      rw [length_cons, ih hrest]

theorem functionsOk_of_loadFunctions (n : ℕ) {fns : List MetalFunction} {vm' : MetalVM}
    (himg : vm.image = f.data) (hp : p ≤ f.len)
    (hrun : loadFunctions f.len n p vm = some (some fns, vm'))
    (hall : ∀ fn ∈ fns, FunctionIn f.data fn) : f.FunctionsOk n p vm.heapUsed := by
  induction n generalizing p vm fns vm' with
  | zero => trivial
  | succ n ih =>
    obtain ⟨r, vm₁, hfn, hrun⟩ := exists_of_run_bind hrun
    obtain ⟨hadds, used, ⟨strings, rfl⟩, hr⟩ := (reads_loadFunction himg hp).of_some hfn
    refine ⟨hadds, fun _ => ?_⟩
    cases r with
    | none => cases hrun
    | some r =>
      obtain ⟨fn, q⟩ := r
      obtain ⟨-, rfl, hcount, hdecoded, -, hcode⟩ := hr fn q rfl
      obtain ⟨rest, vm₁, hrest, hlast⟩ := exists_of_run_bind hrun
      obtain ⟨hsome, -⟩ := Prod.mk.inj (some.inj hlast)
      obtain ⟨fns', rfl, rfl⟩ := map_eq_some_iff.mp hsome
      have hfnIn := hall fn mem_cons_self
      have hcodeOk := codeOk_of_codeAfter hcode hfnIn.1
      obtain ⟨-, hfits, rfl⟩ := codeAfter_of_codeOk hcodeOk hcode
      refine ⟨hcodeOk, fun _ => ⟨?_, ?_⟩⟩
      · have hle := hfnIn.2
        unfold SgvmFile.PoolOk
        omega
      · have himg' : MetalVM.image { vm with
            strings := strings, heapUsed := vm.heapUsed + f.poolCount (f.fnPool p) * 16 } =
            f.data := himg
        exact ih himg' hfits.2 hrest fun g hg => hall g (mem_cons_of_mem fn hg)

end SageOS.MetalVM
