import SageOS.SgvmPacked

/-!
# Functions of a packed image

The functions follow each other in the file and share the pool of strings and the heap, whatever
their number. An image within the limits of the pools is therefore accepted by a fresh machine, and
its code, parameters and constants are those that were packed.
-/
namespace SageOS
open Checked MetalVM List
section Load
variable {f : SgvmFile} {vm : MetalVM} {p : ℕ} {ss all : List Bytes}

/-- `fn` is what the loader makes of the function `g`. -/
structure FnLoaded (f : SgvmFile) (all : List Bytes) (g : BytecodeFunction) (fn : MetalFunction) :
    Prop where
  code : ∃ q : ℕ, fn.code = ⟨q, g.chunk.code.length⟩ ∧ f.Holds q g.chunk.code
  constants : fn.constants = ⟨g.chunk.constants.map (valueIn all), g.chunk.constants.length⟩
  params : fn.paramNameHashes = g.params.map metalFnv1a

/-- What the loader needs of a function. -/
structure BytecodeFunction.Loadable (g : BytecodeFunction) : Prop where
  params : g.params.length ≤ 8
  constants : ∀ c ∈ g.chunk.constants, c.Loadable
  constCount : g.chunk.constants.length < 65536

theorem length_packParams (params : List Bytes) :
    (packParams params).length = 4 * params.length := by
  induction params with
  | nil => rfl
  | cons param params ih =>
    unfold packParams at ih ⊢
    rw [flatMap_cons, length_append, ih, length_packLe, length_cons]
    omega

theorem loadFunction_packed {g : BytecodeFunction} (hvm : Interned f ss vm)
    (hroom : (poolOf all).length ≤ metalStringPool) (h : f.Holds p (packFunction g))
    (hg : g.Loadable) (hall : addConsts ss g.chunk.constants <+: all)
    (hheap : vm.heapUsed + g.chunk.constants.length * 16 ≤ metalHeapSize) :
    ∃ fn, FnLoaded f all g fn ∧ loadFunction f.len p vm = some (some (fn,
      ((p + (packFunction g).length : ℕ) : ℤ)),
      { vm with
        strings := poolOf (addConsts ss g.chunk.constants)
        heapUsed := vm.heapUsed + g.chunk.constants.length * 16 }) := by
  have hle := h.le
  have hparams := hg.params
  have hlen : (packFunction g).length = 2 + 4 * g.params.length +
      (packConsts g.chunk.constants).length + (packCode g.chunk.code).length := by
    simp only [packFunction, length_append, length_packLe, length_packParams]
  have hcnt : f.leAt 2 p = g.params.length := h.left.left.left.leAt (by omega)
  have hpar : f.Holds (p + 2) (packParams g.params) := by
    have := h.left.left.right
    rwa [length_packLe] at this
  have hpool : f.Holds (p + 2 + 4 * g.params.length) (packConsts g.chunk.constants) := by
    have := h.left.right
    rwa [length_append, length_packLe, length_packParams, ← Nat.add_assoc] at this
  have hcode : f.Holds (p + 2 + 4 * g.params.length + (packConsts g.chunk.constants).length)
      (packCode g.chunk.code) := by
    have := h.right
    rwa [length_append, length_append, length_packLe, length_packParams, ← Nat.add_assoc,
      ← Nat.add_assoc] at this
  have htext : f.Holds (p + 2 + 4 * g.params.length + (packConsts g.chunk.constants).length + 4)
      g.chunk.code := by
    have := hcode.right
    rwa [length_packLe] at this
  have hin : p + 2 ≤ f.len := by omega
  have h2 : addInt p 2 = (p + 2 : ℕ) := addInt_of_le f (n := 2) hin
  refine ⟨⟨⟨_, g.chunk.code.length⟩, ⟨g.chunk.constants.map (valueIn all),
    g.chunk.constants.length⟩, g.params.map metalFnv1a⟩, ⟨⟨_, rfl, htext⟩, rfl, rfl⟩, ?_⟩
  unfold loadFunction
  rw [h2, run_ite, if_neg (not_lt_cast hin), run_bind_of (readLe_run hvm.image hin), hcnt, run_ite,
    if_neg (not_lt.mpr hparams), run_bind_of (loadParams_packed hvm.image hpar)]
  dsimp only
  rw [run_bind_of (loadFnPool_packed hvm hroom hpool hg.constants hg.constCount hall hheap)]
  dsimp only
  rw [run_bind_of (@loadCode_packed f { vm with
    strings := poolOf (addConsts ss g.chunk.constants)
    heapUsed := vm.heapUsed + g.chunk.constants.length * 16 } _ _ hvm.image hcode), hlen]
  have hsum : p + 2 + 4 * g.params.length + (packConsts g.chunk.constants).length +
      (packCode g.chunk.code).length = p + (2 + 4 * g.params.length +
      (packConsts g.chunk.constants).length + (packCode g.chunk.code).length) := by omega
  rw [hsum]
  rfl

/-- The strings interned for the constants of a list of functions. -/
def addFunctions (ss : List Bytes) (gs : List BytecodeFunction) : List Bytes :=
  gs.foldl (fun ss g => addConsts ss g.chunk.constants) ss

theorem prefix_addFunctions (ss : List Bytes) (gs : List BytecodeFunction) :
    ss <+: addFunctions ss gs := by
  induction gs generalizing ss with
  | nil => exact prefix_rfl
  | cons g gs ih => exact (prefix_addConsts ss _).trans (ih _)

def constBytes (gs : List BytecodeFunction) : ℕ :=
  (gs.map fun g => g.chunk.constants.length * 16).sum

theorem loadFunctions_packed {gs : List BytecodeFunction} (hvm : Interned f ss vm)
    (hroom : (poolOf all).length ≤ metalStringPool) (h : f.Holds p (gs.flatMap packFunction))
    (hgs : ∀ g ∈ gs, g.Loadable) (hall : addFunctions ss gs <+: all)
    (hheap : vm.heapUsed + constBytes gs ≤ metalHeapSize) :
    ∃ fns, List.Forall₂ (FnLoaded f all) gs fns ∧
      loadFunctions f.len gs.length p vm = some (some fns, { vm with
          strings := poolOf (addFunctions ss gs)
          heapUsed := vm.heapUsed + constBytes gs }) := by
  induction gs generalizing p vm ss with
  | nil =>
    refine ⟨[], .nil, ?_⟩
    simp only [addFunctions, constBytes, foldl_nil, map_nil, sum_nil, ← hvm.strings]
    rfl
  | cons g gs ih =>
    have hg := hgs g mem_cons_self
    have hsum : constBytes (g :: gs) = g.chunk.constants.length * 16 + constBytes gs := rfl
    have hone : addConsts ss g.chunk.constants <+: all := (prefix_addFunctions _ gs).trans hall
    obtain ⟨fn, hfn, hrun⟩ := loadFunction_packed hvm hroom h.left hg hone (by omega)
    obtain ⟨fns, hfns, hmore⟩ := @ih { vm with
        strings := poolOf (addConsts ss g.chunk.constants)
        heapUsed := vm.heapUsed + g.chunk.constants.length * 16 } _ _
      ⟨hvm.image, rfl, nulFree_addConsts hvm.nulFree hg.constants⟩ h.right
      (fun x hx => hgs x (mem_cons_of_mem g hx)) hall (by dsimp only; omega)
    refine ⟨fn :: fns, .cons hfn hfns, ?_⟩
    rw [length_cons, loadFunctions, run_bind_of hrun]
    dsimp only
    rw [run_bind_of hmore, hsum, ← Nat.add_assoc]
    rfl

theorem loadFnTable_packed {gs : List BytecodeFunction} (hvm : Interned f ss vm)
    (h : f.Holds p (packLe 2 gs.length ++ gs.flatMap packFunction)) (hgs : ∀ g ∈ gs, g.Loadable)
    (hcount : gs.length ≤ metalPoolMax)
    (hroom : (poolOf (addFunctions ss gs)).length ≤ metalStringPool)
    (hheap : vm.heapUsed + constBytes gs ≤ metalHeapSize) :
    ∃ fns vm', List.Forall₂ (FnLoaded f (addFunctions ss gs)) gs fns ∧
      loadFnTable f.len p vm = some (true, vm') ∧ vm'.image = vm.image ∧ vm'.code = vm.code ∧
      vm'.constants = vm.constants ∧ vm'.strings = poolOf (addFunctions ss gs) ∧
      vm'.fnCount = gs.length ∧ ∀ i, vm'.functions i = fns.getD i (vm.functions i) := by
  have hle := h.le
  have hmax : gs.length < 256 ^ 2 := hcount.trans_lt (by decide)
  have hlen : 2 ≤ (packLe 2 gs.length ++ gs.flatMap packFunction).length := by
    rw [length_append, length_packLe]
    omega
  have hcnt : f.leAt 2 p = gs.length := h.left.leAt hmax
  have htail : f.Holds (p + 2) (gs.flatMap packFunction) := by
    have := h.right
    rwa [length_packLe] at this
  have hin : p + 2 ≤ f.len := by omega
  have h2 : addInt p 2 = (p + 2 : ℕ) := addInt_of_le f (n := 2) hin
  obtain ⟨fns, hfns, hrun⟩ := loadFunctions_packed hvm hroom htail hgs prefix_rfl hheap
  have htable : loadFnTable f.len p vm = some (true, { vm with
      strings := poolOf (addFunctions ss gs)
      heapUsed := vm.heapUsed + constBytes gs
      fnCount := gs.length
      functions := fun i => fns.getD i (vm.functions i) }) := by
    unfold loadFnTable
    rw [h2, run_ite, if_neg (not_lt_cast hin), run_bind_of (readLe_run hvm.image hin), hcnt,
      run_ite, if_neg (not_lt.mpr hcount), run_bind_of hrun]
    rfl
  exact ⟨fns, _, hfns, htable, rfl, rfl, rfl, rfl, rfl, fun _ => rfl⟩

end Load

/-- Every constant of an image that can be packed, with strings without NUL, can be loaded. -/
def SgvmImage.NulFree (p : SgvmImage) : Prop :=
  ∀ c ∈ p.chunks, ∀ s, .string s ∈ c.constants → 0 ∉ s

theorem loadable_of_mem {p : SgvmImage} (hnul : p.NulFree) (hpacks : p.Packs) {c : BytecodeChunk}
    (hc : c ∈ p.chunks) : ∀ k ∈ c.constants, k.Loadable := by
  intro k hk
  cases k with
  | number bits => trivial
  | string s => exact ⟨hnul c hc s hk, hpacks.strings c hc s hk⟩

theorem storedAs_valueIn {all : List Bytes} (hroom : (poolOf all).length ≤ metalStringPool)
    {k : BytecodeConst} (hk : k.Loadable) (hmem : ∀ s, k = .string s → s ∈ all) :
    k.StoredAs (poolOf all) (valueIn all k) := by
  cases k with
  | number bits => rfl
  | string s =>
    have hs := hmem s rfl
    have hlt := poolOffset_lt hs
    have hpool : metalStringPool < 2 ^ 31 := by decide
    refine ⟨rfl, ?_⟩
    rw [valueIn, MetalValue.int_ofInt _ (by omega), metalStringGet_pool hs hk.1]

theorem mem_addConsts {ss : List Bytes} {cs : List BytecodeConst} {s : Bytes}
    (h : .string s ∈ cs) : s ∈ addConsts ss cs := by
  induction cs generalizing ss with
  | nil => cases h
  | cons c cs ih =>
    rcases mem_cons.mp h with rfl | h
    · exact (prefix_addConsts _ cs).subset (mem_addString ss s)
    · exact ih h

theorem mem_addFunctions {ss : List Bytes} {gs : List BytecodeFunction} {g : BytecodeFunction}
    (hg : g ∈ gs) {s : Bytes} (h : .string s ∈ g.chunk.constants) : s ∈ addFunctions ss gs := by
  induction gs generalizing ss with
  | nil => cases hg
  | cons x gs ih =>
    rcases mem_cons.mp hg with rfl | hg
    · exact (prefix_addFunctions _ gs).subset (mem_addConsts h)
    · exact ih hg

theorem loadedAs_of_holds {f : SgvmFile} {vm : MetalVM} {all : List Bytes} {c : BytecodeChunk}
    (himg : vm.image = f.data) (hstr : vm.strings = poolOf all)
    (hroom : (poolOf all).length ≤ metalStringPool) (hc : ∀ k ∈ c.constants, k.Loadable)
    (hmem : ∀ s, .string s ∈ c.constants → s ∈ all) {q : ℕ} (hq : f.Holds q c.code) :
    c.LoadedAs vm ⟨q, c.code.length⟩ ⟨c.constants.map (valueIn all), c.constants.length⟩ where
  base := Int.natCast_nonneg q
  length := rfl
  code := by
    rw [CodeRef.bytes, himg]
    exact hq.slice
  count := rfl
  constants := by
    rw [hstr, List.forall₂_map_right_iff]
    apply List.forall₂_same.mpr
    intro k hk
    apply storedAs_valueIn hroom (hc k hk)
    rintro s rfl
    exact hmem s hk

/-- What follows the header of an image. -/
def SgvmImage.body (p : SgvmImage) : Bytes :=
  packConsts p.main.constants ++ (packCode p.main.code ++
    (packLe 2 p.functions.length ++ p.functions.flatMap packFunction))

theorem SgvmImage.pack_eq_body (p : SgvmImage) : p.pack = bytes "SGVM" ++ ([2] ++ p.body) := by
  unfold SgvmImage.pack SgvmImage.body
  simp only [append_assoc]

section Image
variable {p : SgvmImage} {f : SgvmFile}

theorem holds_body (hdata : f.data = p.pack) : f.Holds 5 p.body := by
  have hwhole : f.Holds 0 (bytes "SGVM" ++ ([2] ++ p.body)) :=
    ⟨[], [], by rw [hdata, p.pack_eq_body, append_nil, nil_append], rfl⟩
  exact hwhole.right.right

theorem headerOk_packed (hdata : f.data = p.pack) : f.HeaderOk := by
  have hwhole : f.Holds 0 (bytes "SGVM" ++ ([2] ++ p.body)) :=
    ⟨[], [], by rw [hdata, p.pack_eq_body, append_nil, nil_append], rfl⟩
  have hle := (holds_body hdata).le
  have hlen : 4 ≤ p.body.length := by
    simp only [SgvmImage.body, packConsts, packCode, length_append, length_packLe]
    omega
  refine ⟨by omega, ?_, hwhole.right.byteAt⟩
  rw [hdata, p.pack_eq_body]
  rfl

theorem fnLoaded_at {all : List Bytes} {gs : List BytecodeFunction} {fns : List MetalFunction}
    (h : List.Forall₂ (FnLoaded f all) gs fns) {i : ℕ} {g : BytecodeFunction}
    (hi : gs[i]? = some g) : ∃ fn, fns[i]? = some fn ∧ FnLoaded f all g fn := by
  obtain ⟨hlt, rfl⟩ := List.getElem?_eq_some_iff.mp hi
  have hlt' : i < fns.length := h.length_eq ▸ hlt
  exact ⟨fns[i], getElem?_eq_getElem hlt', h.get hlt hlt'⟩

end Image

/-- An image that was packed within the limits is accepted by a fresh machine, which then holds
exactly what was packed. -/
theorem packed_image_loads (p : SgvmImage) (hparams : ∀ g ∈ p.functions, g.params.length ≤ 8)
    (hnul : p.NulFree) (hpacks : p.Packs) (hlimits : p.WithinLimits) :
    ∃ vm, metalVmLoadBinary ⟨p.pack, hlimits.length⟩ metalVmInit = some (true, vm) ∧
      p.LoadedIn vm := by
  set f : SgvmFile := ⟨p.pack, hlimits.length⟩ with hf
  have hmainMem : p.main ∈ p.chunks := mem_cons_self
  have hfnMem : ∀ g ∈ p.functions, g.chunk ∈ p.chunks :=
    fun g hg => mem_cons_of_mem _ (mem_map_of_mem hg)
  have hbody : f.Holds 5 p.body := holds_body rfl
  have hgs : ∀ g ∈ p.functions, g.Loadable := fun g hg =>
    ⟨hparams g hg, loadable_of_mem hnul hpacks (hfnMem g hg), hpacks.constCount _ (hfnMem g hg)⟩
  have hmain := loadable_of_mem hnul hpacks hmainMem
  have hroom : (poolOf (addFunctions (addConsts [] p.main.constants) p.functions)).length ≤
      metalStringPool := hlimits.strings
  have hstart : Interned f [] (withImage f) := ⟨rfl, rfl, fun t ht => absurd ht not_mem_nil⟩
  have hpool := loadConstPool_packed hstart hroom hbody.left hmain (hpacks.constCount _ hmainMem)
    (prefix_addFunctions _ p.functions) hlimits.mainConsts
  set q : ℕ := 5 + (packConsts p.main.constants).length with hq
  have hcode : f.Holds q (packCode p.main.code) := hbody.right.left
  have htext : f.Holds (q + 4) p.main.code := by
    have := hcode.right
    rwa [length_packLe] at this
  have htable : f.Holds (q + (packCode p.main.code).length)
      (packLe 2 p.functions.length ++ p.functions.flatMap packFunction) := hbody.right.right
  obtain ⟨fns, vm, hfns, hrun, himg, hvmcode, hconsts, hstr, hcount, hfn⟩ :=
    @loadFnTable_packed f { withImage f with
      strings := poolOf (addConsts [] p.main.constants)
      constants := ⟨p.main.constants.map (valueIn _), p.main.constants.length⟩
      code := ⟨(q + 4 : ℕ), p.main.code.length⟩
      ip := 0 } _ _ _ ⟨rfl, rfl, nulFree_addConsts hstart.nulFree hmain⟩ htable hgs
      hlimits.functions hroom
      ((Nat.zero_add _).trans_le hlimits.heap)
  have hload : metalVmLoadBinary f metalVmInit = some (true, vm) := by
    rw [metalVmLoadBinary_run, if_pos (headerOk_packed rfl)]
    refine (run_bind_of hpool _).trans ?_
    rw [run_modify_bind]
    refine (run_bind_of (loadCode_packed (f := f) rfl hcode) _).trans ?_
    dsimp only
    rw [run_modify_bind]
    exact hrun
  refine ⟨vm, hload, ?_, hcount, ?_⟩
  · rw [hvmcode, hconsts]
    exact loadedAs_of_holds himg hstr hroom hmain
      (fun s hs => (prefix_addFunctions _ _).subset (mem_addConsts hs)) htext
  · intro i g hi
    have hg : g ∈ p.functions := mem_of_getElem? hi
    obtain ⟨fn, hfi, ⟨qf, hqf, hcodef⟩, hconstsf, hparamsf⟩ := fnLoaded_at hfns hi
    have hfun : vm.functions i = fn := by
      rw [hfn, getD_eq_getElem?_getD, hfi, Option.getD_some]
    rw [hfun, hqf, hconstsf]
    exact ⟨loadedAs_of_holds himg hstr hroom (hgs g hg).constants
      (fun s hs => mem_addFunctions hg hs) hcodef, hparamsf⟩

/-- Two functions that share a string with the main program. -/
def greetingImage : SgvmImage where
  main := ⟨[3, 0, 0, 1], [.string (bytes "hello"), .number 0x3ff0000000000000]⟩
  functions := [⟨[bytes "x"], ⟨[7], [.string (bytes "hello")]⟩⟩,
    ⟨[], ⟨[7, 8], [.number 0, .string (bytes "bye")]⟩⟩]

theorem greetingImage_nulFree : greetingImage.NulFree := by
  simp [SgvmImage.NulFree, SgvmImage.chunks, greetingImage, bytes]

theorem greetingImage_packs : greetingImage.Packs := by
  constructor <;> simp [SgvmImage.chunks, greetingImage, bytes]

theorem greetingImage_withinLimits : greetingImage.WithinLimits := by
  constructor <;> decide +kernel

theorem greetingImage_loads : ∃ h vm,
    metalVmLoadBinary ⟨greetingImage.pack, h⟩ metalVmInit = some (true, vm) ∧
      greetingImage.LoadedIn vm :=
  ⟨greetingImage_withinLimits.length, packed_image_loads greetingImage (by decide)
    greetingImage_nulFree greetingImage_packs greetingImage_withinLimits⟩

end SageOS
