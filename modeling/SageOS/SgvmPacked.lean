import SageOS.SgvmPack
import SageOS.SgvmSafety

/-!
# Loading a packed image

The loader meets every packed part at the position where its writer put it, so each check of a
length succeeds and each read returns what was packed. Strings are interned in a pool that only
grows, so the values loaded first still lead to their texts in the end.
-/
namespace SageOS
open Checked MetalVM List

/-- The bytes `w` are in the file from position `p` on. -/
def SgvmFile.Holds (f : SgvmFile) (p : ℕ) (w : Bytes) : Prop :=
  ∃ pre rest, f.data = pre ++ (w ++ rest) ∧ pre.length = p

namespace SgvmFile.Holds
variable {f : SgvmFile} {p : ℕ} {w w' : Bytes} {b : UInt8}

theorem le (h : f.Holds p w) : p + w.length ≤ f.len := by
  obtain ⟨pre, rest, hdata, rfl⟩ := h
  have hlen := congrArg List.length hdata
  simp only [length_append] at hlen
  unfold SgvmFile.len
  omega

theorem left (h : f.Holds p (w ++ w')) : f.Holds p w := by
  obtain ⟨pre, rest, hdata, hp⟩ := h
  exact ⟨pre, w' ++ rest, by rw [hdata, append_assoc], hp⟩

theorem right (h : f.Holds p (w ++ w')) : f.Holds (p + w.length) w' := by
  obtain ⟨pre, rest, hdata, rfl⟩ := h
  exact ⟨pre ++ w, rest, by simp only [hdata, append_assoc], by simp⟩

theorem tail (h : f.Holds p (b :: w)) : f.Holds (p + 1) w := right (w := [b]) h

theorem byteAt (h : f.Holds p (b :: w)) : f.byteAt p = b.toNat := by
  obtain ⟨pre, rest, hdata, rfl⟩ := h
  unfold SgvmFile.byteAt
  rw [hdata]
  simp

theorem slice (h : f.Holds p w) : (f.data.drop p).take w.length = w := by
  obtain ⟨pre, rest, hdata, rfl⟩ := h
  rw [hdata, drop_left, take_left]

theorem leAt {n v : ℕ} (h : f.Holds p (packLe n v)) (hv : v < 256 ^ n) : f.leAt n p = v := by
  induction n generalizing p v with
  | zero =>
    have : v = 0 := by simpa using hv
    rw [this]
    rfl
  | succ n ih =>
    have hdiv : v / 256 < 256 ^ n := by
      rw [Nat.div_lt_iff_lt_mul (by decide)]
      rwa [pow_succ] at hv
    have hbyte : f.byteAt p = v % 256 := by
      rw [h.byteAt, UInt8.toNat_ofNat']
      omega
    unfold SgvmFile.leAt
    rw [hbyte, ih h.tail hdiv]
    omega

end SgvmFile.Holds

theorem length_packLe (n v : ℕ) : (packLe n v).length = n := by
  induction n generalizing v with
  | zero => rfl
  | succ n ih => rw [packLe, length_cons, ih]

/-- The value that a constant is loaded as when the pool ends up with the strings `all`. -/
def valueIn (all : List Bytes) : BytecodeConst → MetalValue
  | .number bits => mvNum bits
  | .string s => .ofInt .str (poolOffset all s)

def BytecodeConst.Loadable : BytecodeConst → Prop
  | .number _ => True
  | .string s => 0 ∉ s ∧ s.length < 65536

section Load
variable {f : SgvmFile} {vm : MetalVM} {p : ℕ} {ss all : List Bytes}

theorem addInt_of_le (f : SgvmFile) {p n : ℕ} (h : p + n ≤ f.len) : addInt p n = (p + n : ℕ) :=
  addInt_nat (h.trans_lt f.length_lt)

theorem not_lt_cast {a b : ℕ} (h : b ≤ a) : ¬ (a : ℤ) < (b : ℤ) := not_lt.mpr (Nat.cast_le.mpr h)

theorem mvStr_pool {s : Bytes} (hstr : vm.strings = poolOf ss) (hss : ∀ t ∈ ss, 0 ∉ t)
    (hall : addString ss s <+: all) (hroom : (poolOf all).length ≤ metalStringPool) :
    mvStr s vm = some (.ofInt .str (poolOffset all s),
      { vm with strings := poolOf (addString ss s) }) := by
  obtain ⟨us, hus⟩ := hall
  have hle : (poolOf (addString ss s)).length ≤ metalStringPool := by
    rw [← hus, poolOf_append, length_append] at hroom
    omega
  have hintern := metalStringIntern_pool hss hle
  have hoff : poolOffset all s = poolOffset (addString ss s) s :=
    poolOffset_of_prefix ⟨us, hus⟩ (mem_addString ss s)
  rw [hoff]
  unfold mvStr internWith
  rw [run_get_bind, hstr]
  dsimp only
  rw [hintern]
  rfl

theorem prefix_addConst (ss : List Bytes) (c : BytecodeConst) : ss <+: addConst ss c := by
  cases c with
  | number bits => exact prefix_rfl
  | string s => exact prefix_addString ss s

theorem prefix_addConsts (ss : List Bytes) (cs : List BytecodeConst) : ss <+: addConsts ss cs := by
  induction cs generalizing ss with
  | nil => exact prefix_rfl
  | cons c cs ih => exact (prefix_addConst ss c).trans (ih _)

theorem nulFree_addConst {c : BytecodeConst} (hss : ∀ t ∈ ss, 0 ∉ t) (hc : c.Loadable) :
    ∀ t ∈ addConst ss c, 0 ∉ t := by
  cases c with
  | number bits => exact hss
  | string s => exact nulFree_addString hss hc.1

variable {cs : List BytecodeConst}

theorem nulFree_addConsts (hss : ∀ t ∈ ss, 0 ∉ t)
    (hcs : ∀ c ∈ cs, c.Loadable) : ∀ t ∈ addConsts ss cs, 0 ∉ t := by
  induction cs generalizing ss with
  | nil => exact hss
  | cons c cs ih =>
    exact ih (nulFree_addConst hss (hcs c mem_cons_self)) fun x hx => hcs x (mem_cons_of_mem c hx)

theorem loadCode_packed {code : Bytes} (himg : vm.image = f.data) (h : f.Holds p (packCode code)) :
    loadCode f.len p vm = some (some (⟨(p + 4 : ℕ), code.length⟩,
      ((p + (packCode code).length : ℕ) : ℤ)), vm) := by
  have hle := h.le
  have hlt := f.length_lt
  have hlen : (packCode code).length = 4 + code.length := by
    rw [packCode, length_append, length_packLe]
  have hflen : f.len < 2 ^ 31 := hlt
  have hword : f.leAt 4 p = code.length := h.left.leAt (by omega)
  have h4 : addInt p 4 = (p + 4 : ℕ) := addInt_of_le f (n := 4) (by omega)
  have hend : addInt (p + 4 : ℕ) code.length = (p + 4 + code.length : ℕ) :=
    addInt_of_le f (by omega)
  unfold loadCode
  rw [h4, run_ite, if_neg (by omega), run_bind_of (readLe_run himg (by omega)), hword]
  rw [toCInt_of_lt (by omega), hend, run_ite, if_neg (by omega), hlen, ← Nat.add_assoc]
  rfl

theorem fnv1a_concat (s : Bytes) (b : UInt8) :
    fnv1a (s ++ [b]) = (fnv1a s ^^^ b.toNat) * 16777619 % 2 ^ 32 := by
  unfold fnv1a
  rw [foldl_concat]

theorem fnv1a_lt (s : Bytes) : fnv1a s < 2 ^ 32 := by
  induction s using List.reverseRecOn with
  | nil => decide
  | append_singleton s b ih =>
    rw [fnv1a_concat]
    exact Nat.mod_lt _ (Nat.two_pow_pos 32)

theorem ofNat_fnv1a (s : Bytes) : UInt32.ofNat (fnv1a s) = metalFnv1a s := by
  induction s using List.reverseRecOn with
  | nil => rfl
  | append_singleton s b ih =>
    have hstep : metalFnv1a (s ++ [b]) = (metalFnv1a s ^^^ b.toUInt32) * 16777619 := by
      simp only [metalFnv1a, foldl_append, foldl_cons, foldl_nil]
    rw [fnv1a_concat, UInt32.ofNat_mod_size, UInt32.ofNat_mul, UInt32.ofNat_xor, ih,
      UInt32.ofNat_uInt8ToNat, hstep]
    rfl

theorem loadParams_packed {params : List Bytes} (himg : vm.image = f.data)
    (h : f.Holds p (packParams params)) :
    loadParams f.len params.length p vm =
      some (some (params.map metalFnv1a, ((p + 4 * params.length : ℕ) : ℤ)), vm) := by
  induction params generalizing p with
  | nil => rfl
  | cons param params ih =>
    have hle := h.le
    have hlen : 4 ≤ (packParams (param :: params)).length := by
      rw [packParams, flatMap_cons, length_append, length_packLe]
      omega
    have hhash : f.leAt 4 p = fnv1a param := h.left.leAt (fnv1a_lt param)
    have htail : f.Holds (p + 4) (packParams params) := by
      have := h.right
      rwa [length_packLe] at this
    have h4 : addInt p 4 = (p + 4 : ℕ) := addInt_of_le f (n := 4) (by omega)
    have hnext : p + 4 + 4 * params.length = p + 4 * (params.length + 1) := by omega
    rw [length_cons, loadParams, h4, run_ite, if_neg (by omega),
      run_bind_of (readLe_run himg (by omega)), run_bind_of (ih htail), hhash, ofNat_fnv1a, hnext]
    rfl

/-- The machine loads `f` and has interned the strings `ss`. -/
structure Interned (f : SgvmFile) (ss : List Bytes) (vm : MetalVM) : Prop where
  image : vm.image = f.data
  strings : vm.strings = poolOf ss
  nulFree : ∀ t ∈ ss, 0 ∉ t

variable (hvm : Interned f ss vm) (hroom : (poolOf all).length ≤ metalStringPool)

include hvm hroom

theorem loadConst_packed {c : BytecodeConst} (h : f.Holds p (packConst c)) (hc : c.Loadable)
    (hall : addConst ss c <+: all) :
    loadConst f.len p vm = some ((some (valueIn all c), ((p + (packConst c).length : ℕ) : ℤ)),
      { vm with strings := poolOf (addConst ss c) }) := by
  have hle := h.le
  obtain ⟨himg, hstr, hss⟩ := hvm
  cases c with
  | number bits =>
    have hlen : (packConst (.number bits)).length = 9 := by
      rw [packConst, length_cons, length_packLe]
    have hbits : f.leAt 8 (p + 1) = bits.toNat :=
      h.tail.leAt (bits.toNat_lt.trans_le (by decide))
    have h1 : addInt p 1 = (p + 1 : ℕ) := addInt_of_le f (n := 1) (by omega)
    have h8 : addInt (p + 1 : ℕ) 8 = (p + 9 : ℕ) := addInt_of_le f (n := 8) (by omega)
    have hbyte : f.byteAt p = 1 := h.byteAt
    unfold loadConst
    rw [run_ite, if_neg (by omega), run_bind_of (dataAt_run himg (by omega)), hbyte]
    rw [h1, run_ite, if_pos rfl, h8, run_ite, if_neg (by omega),
      run_bind_of (readLe_run himg (by omega)), hbits, UInt64.ofNat_toNat]
    simp only [addConst, ← hstr]
    rfl
  | string s =>
    obtain ⟨hnul, hshort⟩ := hc
    have hlen : (packConst (.string s)).length = 3 + s.length := by
      simp only [packConst, length_cons, length_append, length_packLe]
      omega
    rw [hlen] at hle ⊢
    have hslen : f.leAt 2 (p + 1) = s.length := h.tail.left.leAt (by omega)
    have htext : f.Holds (p + 3) s := by
      have := h.tail.right
      rwa [length_packLe] at this
    have h1 : addInt p 1 = (p + 1 : ℕ) := addInt_of_le f (n := 1) (by omega)
    have h2 : addInt (p + 1 : ℕ) 2 = (p + 3 : ℕ) := addInt_of_le f (n := 2) (by omega)
    have h3 : addInt (p + 3 : ℕ) s.length = (p + 3 + s.length : ℕ) := addInt_of_le f (by omega)
    have hbyte : f.byteAt p = 2 := h.byteAt
    unfold loadConst
    rw [run_ite, if_neg (by omega), run_bind_of (dataAt_run himg (by omega)), hbyte]
    rw [h1, run_ite, if_neg (by decide), run_ite, if_pos rfl, h2, run_ite, if_neg (by omega),
      run_bind_of (readLe_run himg (by omega)), hslen, h3, run_ite, if_neg (by omega),
      run_bind_of (readBytes_run himg (by omega)), htext.slice,
      run_bind_of (mvStr_pool hstr hss hall hroom)]
    rw [Nat.add_assoc]
    rfl

theorem loadConsts_packed (h : f.Holds p (cs.flatMap packConst)) (hcs : ∀ c ∈ cs, c.Loadable)
    (hall : addConsts ss cs <+: all) :
    loadConsts f.len cs.length p vm =
      some ((cs.map (valueIn all), ((p + (cs.flatMap packConst).length : ℕ) : ℤ)),
        { vm with strings := poolOf (addConsts ss cs) }) := by
  induction cs generalizing p vm ss with
  | nil =>
    simp only [addConsts, foldl_nil, ← hvm.strings]
    rfl
  | cons c cs ih =>
    have hc := hcs c mem_cons_self
    have hrest : addConst ss c <+: all := (prefix_addConsts _ cs).trans hall
    have htail : f.Holds (p + (packConst c).length) (cs.flatMap packConst) := h.right
    have hone := loadConst_packed hvm hroom h.left hc hrest
    have hmore := @ih { vm with strings := poolOf (addConst ss c) } _ _
      ⟨hvm.image, rfl, nulFree_addConst hvm.nulFree hc⟩ htail
      (fun x hx => hcs x (mem_cons_of_mem c hx)) hall
    rw [length_cons, loadConsts, run_bind_of hone]
    dsimp only
    rw [run_bind_of hmore, flatMap_cons, length_append, ← Nat.add_assoc]
    rfl

variable (h : f.Holds p (packConsts cs)) (hcs : ∀ c ∈ cs, c.Loadable) (hcount : cs.length < 65536)
  (hall : addConsts ss cs <+: all)

include h hcs hcount hall

theorem loadConstPool_packed {max : ℕ} (hmax : cs.length ≤ max) : loadConstPool f.len p max vm =
      some ((⟨cs.map (valueIn all), cs.length⟩, ((p + (packConsts cs).length : ℕ) : ℤ)),
        { vm with strings := poolOf (addConsts ss cs) }) := by
  have hle := h.le
  have hlen : (packConsts cs).length = 2 + (cs.flatMap packConst).length := by
    rw [packConsts, length_append, length_packLe]
  have hcnt : f.leAt 2 p = cs.length := h.left.leAt (by omega)
  have htail : f.Holds (p + 2) (cs.flatMap packConst) := by
    have := h.right
    rwa [length_packLe] at this
  have h2 : addInt p 2 = (p + 2 : ℕ) := addInt_of_le f (n := 2) (by omega)
  have htake : (cs.map (valueIn all)).take max = cs.map (valueIn all) :=
    take_of_length_le (by simpa using hmax)
  unfold loadConstPool
  rw [h2, run_ite, if_neg (by omega), run_bind_of (readLe_run hvm.image (by omega)), hcnt,
    run_bind_of (loadConsts_packed hvm hroom htail hcs hall), run_pure, htake,
    Nat.min_eq_left hmax, hlen, ← Nat.add_assoc]

theorem loadFnPool_packed (hheap : vm.heapUsed + cs.length * 16 ≤ metalHeapSize) :
    loadFnPool f.len p vm = some (some (⟨cs.map (valueIn all), cs.length⟩,
      ((p + (packConsts cs).length : ℕ) : ℤ)),
      { vm with
        strings := poolOf (addConsts ss cs)
        heapUsed := vm.heapUsed + cs.length * 16 }) := by
  have hle := h.le
  have hlen : 2 ≤ (packConsts cs).length := by
    rw [packConsts, length_append, length_packLe]
    omega
  have hcnt : f.leAt 2 p = cs.length := h.left.leAt (by omega)
  have h2 : addInt p 2 = (p + 2 : ℕ) := addInt_of_le f (n := 2) (by omega)
  unfold loadFnPool
  rw [h2, run_ite, if_neg (by omega), run_bind_of (readLe_run hvm.image (by omega)), hcnt,
    run_get_bind, run_ite, if_neg (by omega),
    run_bind_of (loadConstPool_packed hvm hroom h hcs hcount hall le_rfl),
    run_modify_bind]
  rfl

end Load
end SageOS
