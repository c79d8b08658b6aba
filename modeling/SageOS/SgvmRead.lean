import SageOS.MetalLoader
import SageOS.MetalRooted

/-!
# The layout of an image and its reading

Where the parts of an image lie depends on its bytes only. The scan says how many constants of a
pool are complete and where the walk over it stops, also when the pool is cut short, and where a
piece of code ends. `ImageOk` says, as far as the loader follows the layout, that no addition to
the position wraps, that the lengths of code are meant as written and that no pool is cut short.

`Reads ok m vm Q` says that `m` ends in `Q` if `ok` holds and leaves the file otherwise: a wrapped
position passes the comparison with the length, and the read behind it is out of bounds.
-/
namespace SageOS
open List
namespace SgvmFile
variable (f : SgvmFile)

def len : ℕ := f.data.length

def byteAt (p : ℕ) : ℕ := (f.data.getD p 0).toNat

def leAt : ℕ → ℕ → ℕ
  | 0, _ => 0
  | n + 1, p => f.byteAt p + 256 * leAt n (p + 1)

/-- Whether the constant at `p` is complete, and where the walk goes on or stops. -/
def scanConst (p : ℕ) : Bool × ℕ :=
  if f.len ≤ p then (false, p)
  else if f.byteAt p = 1 then
    if f.len < p + 9 then (false, p + 1) else (true, p + 9)
  else if f.byteAt p = 2 then
    if f.len < p + 3 then (false, p + 1)
    else if f.len < p + 3 + f.leAt 2 (p + 1) then (false, p + 3)
    else (true, p + 3 + f.leAt 2 (p + 1))
  else (true, p + 1)

/-- How many of `n` constants from `p` on are complete, and where the walk stops. -/
def scanConsts : ℕ → ℕ → ℕ × ℕ
  | 0, p => (0, p)
  | n + 1, p =>
    if (f.scanConst p).1 then
      ((scanConsts n (f.scanConst p).2).1 + 1, (scanConsts n (f.scanConst p).2).2)
    else (0, (f.scanConst p).2)

def poolCount (p : ℕ) : ℕ := if f.len < p + 2 then 0 else f.leAt 2 p

def poolComplete (p : ℕ) : ℕ := (f.scanConsts (f.poolCount p) (p + 2)).1

def poolEnd (p : ℕ) : ℕ := if f.len < p + 2 then p else (f.scanConsts (f.poolCount p) (p + 2)).2

/-- The additions to the position that are made for the constant at `p` do not wrap. -/
def ConstAdds (p : ℕ) : Prop :=
  p < f.len → (f.byteAt p = 1 → p + 9 < 2 ^ 31) ∧
    (f.byteAt p = 2 → p + 3 < 2 ^ 31 ∧ (p + 3 ≤ f.len → p + 3 + f.leAt 2 (p + 1) < 2 ^ 31))

def ConstsAdd : ℕ → ℕ → Prop
  | 0, _ => True
  | n + 1, p => f.ConstAdds p ∧ ((f.scanConst p).1 → ConstsAdd n (f.scanConst p).2)

def PoolAdds (p : ℕ) : Prop :=
  p + 2 < 2 ^ 31 ∧ (p + 2 ≤ f.len → f.ConstsAdd (f.leAt 2 p) (p + 2))

def ParamsAdd : ℕ → ℕ → Prop
  | 0, _ => True
  | n + 1, p => p + 4 < 2 ^ 31 ∧ (p + 4 ≤ f.len → ParamsAdd n (p + 4))

def codeEnd (p : ℕ) : ℕ := p + 4 + f.leAt 4 p

/-- The length of the code at `p` is not negative and does not wrap the position. -/
def CodeOk (p : ℕ) : Prop := p + 4 ≤ f.len → f.codeEnd p < 2 ^ 31

/-- At least as many constants are complete as are recorded. -/
def PoolOk (p max : ℕ) : Prop := min (f.poolCount p) max ≤ f.poolComplete p

def CodeFits (p : ℕ) : Prop := p + 4 ≤ f.len ∧ f.codeEnd p ≤ f.len

/-- Where the constants and the code of the function at `p` begin. -/
def fnPool (p : ℕ) : ℕ := p + 2 + 4 * f.leAt 2 p

def fnCode (p : ℕ) : ℕ := f.poolEnd (f.fnPool p)

/-- The loader reads the function at `p` up to its constants, with `heap` bytes used before. -/
def FnReached (p heap : ℕ) : Prop :=
  p + 2 ≤ f.len ∧ f.leAt 2 p ≤ 8 ∧ f.fnPool p + 2 ≤ f.len ∧
    heap + f.leAt 2 (f.fnPool p) * 16 ≤ metalHeapSize

/-- The additions for the constants of a function, which are stored behind `heap` bytes. -/
def FnPoolAdds (p heap : ℕ) : Prop :=
  p + 2 < 2 ^ 31 ∧ (p + 2 ≤ f.len → heap + f.leAt 2 p * 16 ≤ metalHeapSize → f.PoolAdds p)

def FnAdds (p heap : ℕ) : Prop :=
  p + 2 < 2 ^ 31 ∧ (p + 2 ≤ f.len → f.leAt 2 p ≤ 8 → f.ParamsAdd (f.leAt 2 p) (p + 2) ∧
    (f.fnPool p ≤ f.len → f.FnPoolAdds (f.fnPool p) heap ∧
      (f.FnReached p heap → f.fnCode p + 4 < 2 ^ 31)))

/-- The table of `n` functions from `p` on, as far as the loader follows it. -/
def FunctionsOk : ℕ → ℕ → ℕ → Prop
  | 0, _, _ => True
  | n + 1, p, heap => f.FnAdds p heap ∧ (f.FnReached p heap → f.CodeOk (f.fnCode p) ∧
      (f.CodeFits (f.fnCode p) → f.PoolOk (f.fnPool p) (f.poolCount (f.fnPool p)) ∧
        FunctionsOk n (f.codeEnd (f.fnCode p)) (heap + f.poolCount (f.fnPool p) * 16)))

def mainCode : ℕ := f.poolEnd 5

def fnTable : ℕ := f.codeEnd f.mainCode

def HeaderOk : Prop := 9 ≤ f.len ∧ f.data.take 4 = bytes "SGVM" ∧ f.byteAt 4 = 2

instance : Decidable f.HeaderOk := inferInstanceAs (Decidable (_ ∧ _))

/-- What a file has to satisfy for the loader to be right about it. -/
def ImageOk : Prop :=
  f.HeaderOk → (f.PoolAdds 5 ∧ f.mainCode + 4 < 2 ^ 31) ∧ f.CodeOk f.mainCode ∧
    (f.CodeFits f.mainCode → f.PoolOk 5 metalConstPool ∧ f.fnTable + 2 < 2 ^ 31 ∧
      (f.fnTable + 2 ≤ f.len → f.leAt 2 f.fnTable ≤ metalPoolMax →
        f.FunctionsOk (f.leAt 2 f.fnTable) (f.fnTable + 2) 0))

section Decidable
variable (p heap : ℕ)

instance decidableConstAdds : Decidable (f.ConstAdds p) := by
  unfold ConstAdds
  infer_instance

instance decidableConstsAdd : ∀ n p, Decidable (f.ConstsAdd n p)
  | 0, _ => .isTrue trivial
  | n + 1, p =>
    have := decidableConstsAdd n (f.scanConst p).2
    inferInstanceAs (Decidable (_ ∧ (_ → _)))

instance decidableParamsAdd : ∀ n p, Decidable (f.ParamsAdd n p)
  | 0, _ => .isTrue trivial
  | n + 1, p =>
    have := decidableParamsAdd n (p + 4)
    inferInstanceAs (Decidable (_ ∧ (_ → _)))

instance decidableFnReached : Decidable (f.FnReached p heap) :=
  inferInstanceAs (Decidable (_ ∧ _))

instance decidableFnAdds : Decidable (f.FnAdds p heap) := by
  unfold FnAdds FnPoolAdds PoolAdds
  infer_instance

instance decidableFunctionsOk : ∀ n p heap, Decidable (f.FunctionsOk n p heap)
  | 0, _, _ => .isTrue trivial
  | n + 1, p, heap => by
    have := decidableFunctionsOk n
    unfold FunctionsOk CodeOk CodeFits PoolOk
    infer_instance

instance decidableImageOk : Decidable f.ImageOk := by
  unfold ImageOk PoolAdds CodeOk CodeFits PoolOk
  infer_instance

end Decidable

theorem leAt_lt (n p : ℕ) : f.leAt n p < 256 ^ n := by
  induction n generalizing p with
  | zero => exact Nat.one_pos
  | succ n ih =>
    have hb : f.byteAt p < 256 := UInt8.toNat_lt _
    have hrest := ih (p + 1)
    unfold leAt
    omega

variable {p : ℕ}

theorem scanConst_le (hp : p ≤ f.len) : (f.scanConst p).2 ≤ f.len := by
  unfold scanConst
  split_ifs <;> dsimp only <;> omega

theorem scanConsts_le (n : ℕ) (hp : p ≤ f.len) :
    (f.scanConsts n p).1 ≤ n ∧ (f.scanConsts n p).2 ≤ f.len := by
  induction n generalizing p with
  | zero => exact ⟨le_rfl, hp⟩
  | succ n ih =>
    have hnext := f.scanConst_le hp
    unfold scanConsts
    split_ifs
    · exact ⟨Nat.succ_le_succ (ih hnext).1, (ih hnext).2⟩
    · exact ⟨Nat.zero_le _, hnext⟩

theorem poolEnd_le (hp : p ≤ f.len) : f.poolEnd p ≤ f.len := by
  unfold poolEnd
  split_ifs with h
  · exact hp
  · exact (f.scanConsts_le _ (by omega)).2

end SgvmFile

theorem addInt_nat {p n : ℕ} (h : p + n < 2 ^ 31) : addInt p n = (p + n : ℕ) := by
  exact Int.bmod_eq_of_le (by omega) (by omega)

/-- A position that wraps is not behind the end of the file. -/
theorem not_lt_addInt {f : SgvmFile} {p n : ℕ} (hp : p ≤ f.len) (hn : n < 2 ^ 31)
    (h : ¬ p + n < 2 ^ 31) : ¬ (f.len : ℤ) < addInt p n := by
  have hlen : f.len < 2 ^ 31 := f.length_lt
  unfold addInt
  rw [Int.bmod_def]
  split_ifs <;> omega

theorem lt_of_toCInt_nonneg {n : ℕ} (hn : n < 2 ^ 32) (h : 0 ≤ toCInt n) : n < 2 ^ 31 := by
  by_contra hge
  unfold toCInt at h
  rw [BitVec.toInt_eq_toNat_cond] at h
  simp at h
  omega

namespace MetalVM
open Checked
variable {f : SgvmFile} {vm : MetalVM}
variable {p : ℕ}

theorem dataAt_run (himg : vm.image = f.data) (hp : p < f.len) :
    dataAt p vm = some (f.byteAt p, vm) := by
  unfold dataAt
  have hin : 0 ≤ (p : ℤ) ∧ (p : ℤ) < vm.image.length := by
    rw [himg]
    unfold SgvmFile.len at hp
    omega
  rw [run_bind_of (run_require (p := fun vm : MetalVM => 0 ≤ (p : ℤ) ∧ (p : ℤ) < vm.image.length)
    hin), run_get_bind, run_pure, himg, Int.toNat_natCast]
  rfl

theorem readLe_run {n p : ℕ} (himg : vm.image = f.data) (hp : p + n ≤ f.len) :
    readLe n p vm = some (f.leAt n p, vm) := by
  induction n generalizing p with
  | zero => rfl
  | succ n ih =>
    have hnext : ((p : ℤ) + 1) = (p + 1 : ℕ) := by omega
    unfold readLe
    rw [run_bind_of (dataAt_run himg (by omega)), hnext, run_bind_of (ih (by omega))]
    rfl

theorem readBytes_run {n p : ℕ} (himg : vm.image = f.data) (hp : p + n ≤ f.len) :
    readBytes n p vm = some ((f.data.drop p).take n, vm) := by
  induction n generalizing p with
  | zero => rfl
  | succ n ih =>
    have hnext : ((p : ℤ) + 1) = (p + 1 : ℕ) := by omega
    have hlt : p < f.data.length := by
      unfold SgvmFile.len at hp
      omega
    have hbyte : UInt8.ofNat (f.byteAt p) = f.data[p] := by
      unfold SgvmFile.byteAt
      rw [getD_eq_getElem?_getD, getElem?_eq_getElem hlt, Option.getD_some, UInt8.ofNat_toNat]
    unfold readBytes
    rw [run_bind_of (dataAt_run himg (by omega)), hnext, run_bind_of (ih (by omega)), run_pure,
      hbyte, drop_eq_getElem_cons hlt, take_succ_cons]

theorem dataAt_le {b : ℕ} {vm' : MetalVM} (himg : vm.image = f.data)
    (h : dataAt p vm = some (b, vm')) : p < f.len ∧ vm' = vm := by
  by_cases hp : p < f.len
  · obtain ⟨-, rfl⟩ := Prod.mk.inj (Option.some.inj ((dataAt_run himg hp).symm.trans h))
    exact ⟨hp, rfl⟩
  · obtain ⟨_, _, hin, -⟩ := exists_of_run_bind h
    unfold require at hin
    rw [if_neg (by dsimp only; rw [himg]; unfold SgvmFile.len at hp; omega)] at hin
    cases hin

/-- A reader that takes one byte after the other reads up to where it ends. -/
theorem le_of_read {α : Type} {read : ℕ → ℤ → Run α} {g : ℕ → α → α} {n : ℕ} {r : α × MetalVM}
    (hread : ∀ n q, read (n + 1) q =
      dataAt q >>= fun b => read n (q + 1) >>= fun w => Pure.pure (g b w))
    (himg : vm.image = f.data) (hp : p ≤ f.len) (h : read n p vm = some r) : p + n ≤ f.len := by
  induction n generalizing p r with
  | zero => exact hp
  | succ n ih =>
    rw [hread] at h
    obtain ⟨b, vm₁, hb, hrest⟩ := exists_of_run_bind h
    obtain ⟨hlt, rfl⟩ := dataAt_le himg hb
    obtain ⟨w, vm₂, hw, -⟩ := exists_of_run_bind hrest
    have := ih (p := p + 1) hlt (by exact_mod_cast hw)
    omega

/-- With `ok`, `m` ends in `Q`; without, it makes an access outside the file. -/
def Reads {α : Type} (ok : Prop) (m : Run α) (vm : MetalVM) (Q : α → MetalVM → Prop) : Prop :=
  (ok ∧ ∃ a vm', m vm = some (a, vm') ∧ Q a vm') ∨ (¬ ok ∧ m vm = none)

namespace Reads
variable {α β : Type} {A B ok : Prop} {m : Run α} {Q Q' : α → MetalVM → Prop}

theorem pure {a : α} (h : Q a vm) : Reads True (Pure.pure a) vm Q :=
  .inl ⟨trivial, a, vm, rfl, h⟩

theorem congr (h : Reads A m vm Q) (hok : ok ↔ A) : Reads ok m vm Q := by
  rwa [Reads, hok]

theorem bind {k : α → Run β} {R : β → MetalVM → Prop} (hm : Reads A m vm Q)
    (hk : ∀ a vm', Q a vm' → Reads B (k a) vm' R) (hok : ok ↔ A ∧ B) :
    Reads ok (m >>= k) vm R := by
  rcases hm with ⟨hA, a, vm', hrun, hq⟩ | ⟨hA, hnone⟩
  · rw [Reads, run_bind_of hrun, hok]
    rcases hk a vm' hq with ⟨hB, h⟩ | ⟨hB, h⟩
    · exact .inl ⟨⟨hA, hB⟩, h⟩
    · exact .inr ⟨fun h' => hB h'.2, h⟩
  · refine .inr ⟨fun h => hA (hok.mp h).1, ?_⟩
    change (m vm).bind _ = none
    rw [hnone]
    rfl

theorem after {a : α} {vm' : MetalVM} {k : α → Run β} {R : β → MetalVM → Prop}
    (hm : m vm = some (a, vm')) (h : Reads ok (k a) vm' R) : Reads ok (m >>= k) vm R := by
  rwa [Reads, run_bind_of hm]

theorem result (h : Reads ok m vm Q) (hok : ok) : ∃ a vm', m vm = some (a, vm') ∧ Q a vm' :=
  (h.resolve_right fun hno => hno.1 hok).2

theorem of_some (h : Reads ok m vm Q) {a : α} {vm' : MetalVM} (hrun : m vm = some (a, vm')) :
    ok ∧ Q a vm' := by
  rcases h with ⟨hok, a', vm₁, hrun', hq⟩ | ⟨-, hnone⟩
  · obtain ⟨rfl, rfl⟩ := Prod.mk.inj (Option.some.inj (hrun.symm.trans hrun'))
    exact ⟨hok, hq⟩
  · rw [hnone] at hrun
    cases hrun

/-- A read of `n` bytes behind the comparison of its end with the length. -/
theorem cutWith {γ : Type} {n : ℕ} {read : Run γ} {w : γ} {stop : α} {k : γ → Run α}
    (hread : p + n ≤ f.len → read vm = some (w, vm)) (hle : ∀ r, read vm = some r → p + n ≤ f.len)
    (hp : p ≤ f.len) (hn : n < 2 ^ 31) (hstop : f.len < p + n → Q stop vm)
    (hk : p + n ≤ f.len → Reads B (k w) vm Q) :
    Reads (p + n < 2 ^ 31 ∧ (p + n ≤ f.len → B))
      (if (f.len : ℤ) < addInt p n then Pure.pure stop else read >>= k) vm Q := by
  have hlen : f.len < 2 ^ 31 := f.length_lt
  by_cases hadd : p + n < 2 ^ 31
  · rw [addInt_nat hadd]
    by_cases hcut : f.len < p + n
    · rw [if_pos (Nat.cast_lt.mpr hcut)]
      exact (pure (hstop hcut)).congr (iff_of_true ⟨hadd, fun h => absurd h (by omega)⟩ trivial)
    · rw [if_neg (mt Nat.cast_lt.mp hcut)]
      rw [Reads, run_bind_of (hread (not_lt.mp hcut))]
      exact (hk (not_lt.mp hcut)).congr ⟨fun h => h.2 (not_lt.mp hcut), fun h => ⟨hadd, fun _ => h⟩⟩
  · refine .inr ⟨fun h => hadd h.1, ?_⟩
    rw [if_neg (not_lt_addInt hp hn hadd)]
    cases hrun : read vm with
    | none =>
      change (read vm).bind _ = none
      rw [hrun]
      rfl
    | some r => exact absurd (hle r hrun) (by omega)

theorem cut {n : ℕ} {stop : α} {k : ℕ → Run α} (himg : vm.image = f.data) (hp : p ≤ f.len)
    (hn : n < 2 ^ 31) (hstop : f.len < p + n → Q stop vm)
    (hk : p + n ≤ f.len → Reads B (k (f.leAt n p)) vm Q) :
    Reads (p + n < 2 ^ 31 ∧ (p + n ≤ f.len → B))
      (if (f.len : ℤ) < addInt p n then Pure.pure stop else readLe n p >>= k) vm Q :=
  cutWith (readLe_run himg) (fun _ => le_of_read (fun _ _ => rfl) himg hp) hp hn hstop hk

end Reads

/-- The constant that was read, if the walk goes on. -/
def ConstRead (f : SgvmFile) (p : ℕ) (vm : MetalVM) (r : Option MetalValue × ℤ) (vm' : MetalVM) :
    Prop :=
  (∃ strings, vm' = { vm with strings := strings }) ∧ r.2 = (f.scanConst p).2 ∧
    (r.1.isSome ↔ (f.scanConst p).1) ∧ r.1.bind MetalValue.ref = none

theorem reads_loadConst (himg : vm.image = f.data) (hp : p ≤ f.len) :
    Reads (f.ConstAdds p) (loadConst f.len p) vm (ConstRead f p vm) := by
  have hstay {v : Option MetalValue} {q : ℕ} (hscan : f.scanConst p = (v.isSome, q))
      (hv : v.bind MetalValue.ref = none) : ConstRead f p vm (v, q) vm :=
    ⟨⟨vm.strings, rfl⟩, by rw [hscan], by rw [hscan], hv⟩
  have hlen : f.len < 2 ^ 31 := f.length_lt
  unfold loadConst
  by_cases hend : f.len ≤ p
  · rw [if_pos (Nat.cast_le.mpr hend)]
    exact (Reads.pure (hstay (v := none) (by simp [SgvmFile.scanConst, hend]) rfl)).congr
      (iff_of_true (fun h => absurd h (by omega)) trivial)
  have h1 : addInt p 1 = (p + 1 : ℕ) := addInt_nat (n := 1) (by omega)
  have hadds : f.ConstAdds p ↔ (f.byteAt p = 1 → p + 9 < 2 ^ 31) ∧ (f.byteAt p = 2 →
      p + 3 < 2 ^ 31 ∧ (p + 3 ≤ f.len → p + 3 + f.leAt 2 (p + 1) < 2 ^ 31)) :=
    imp_iff_right (not_le.mp hend)
  rw [if_neg (mt Nat.cast_le.mp hend)]
  refine .after (dataAt_run himg (by omega)) ?_
  rw [h1]
  by_cases hnum : f.byteAt p = 1
  · rw [if_pos hnum]
    refine (Reads.cut (p := p + 1) (n := 8) (B := True) himg (by omega) (by decide) ?_ ?_).congr
      (by simp [hadds, hnum])
    · intro hcut
      exact hstay (v := none) (by simp [SgvmFile.scanConst, hend, hnum, hcut]) rfl
    · intro hle
      have h8 : addInt (p + 1 : ℕ) 8 = (p + 9 : ℕ) := addInt_nat (n := 8) (by omega)
      rw [h8]
      exact .pure (hstay (v := some _) (by simp [SgvmFile.scanConst, hend, hnum]; omega) rfl)
  rw [if_neg hnum]
  by_cases hstr : f.byteAt p = 2
  · rw [if_pos hstr]
    refine (Reads.cut (p := p + 1) (n := 2) (B := p + 3 + f.leAt 2 (p + 1) < 2 ^ 31) himg (by omega)
      (by decide) ?_ ?_).congr (by simp [hadds, hstr])
    · intro hcut
      exact hstay (v := none) (by simp [SgvmFile.scanConst, hend, hstr, hcut]) rfl
    · intro hle
      have hslen := f.leAt_lt 2 (p + 1)
      have h2 : addInt (p + 1 : ℕ) 2 = (p + 3 : ℕ) := addInt_nat (n := 2) (by omega)
      rw [h2]
      refine (Reads.cutWith (p := p + 3) (B := True) (readBytes_run himg)
        (fun _ => le_of_read (fun _ _ => rfl) himg hle) hle (by omega) ?_ ?_).congr (by simp)
      · intro hlong
        exact hstay (v := none) (by simp [SgvmFile.scanConst, hend, hstr, hlong]; omega) rfl
      · intro hfit
        rw [addInt_nat (by omega)]
        have hscan : f.scanConst p = (true, p + 3 + f.leAt 2 (p + 1)) := by
          simp [SgvmFile.scanConst, hend, hstr, not_lt.mpr hle, not_lt.mpr hfit]
        exact .inl ⟨trivial, _, _, rfl, ⟨_, rfl⟩, by rw [hscan], by rw [hscan]; simp, rfl⟩
  · rw [if_neg hstr]
    have hscan : f.scanConst p = (true, p + 1) := by simp [SgvmFile.scanConst, hend, hnum, hstr]
    exact (Reads.pure (hstay (v := some mvNil) (by simp [hscan]) rfl)).congr
      (by simp [hadds, hnum, hstr])

theorem reads_loadConsts (n : ℕ) (himg : vm.image = f.data) (hp : p ≤ f.len) :
    Reads (f.ConstsAdd n p) (loadConsts f.len n p) vm fun r vm' =>
      (∃ strings, vm' = { vm with strings := strings }) ∧
        r.1.length = (f.scanConsts n p).1 ∧ r.2 = (f.scanConsts n p).2 ∧
        ∀ v ∈ r.1, v.ref = none := by
  induction n generalizing p vm with
  | zero => exact .pure ⟨⟨vm.strings, rfl⟩, rfl, rfl, nofun⟩
  | succ n ih =>
    unfold loadConsts SgvmFile.scanConsts
    refine (reads_loadConst himg hp).bind ?_ Iff.rfl
    rintro ⟨v, q⟩ vm' ⟨⟨strings, rfl⟩, rfl, hv, href⟩
    cases v with
    | none =>
      have hcut : ¬ (f.scanConst p).1 := fun h => by simpa using hv.mpr h
      rw [if_neg hcut]
      exact (Reads.pure ⟨⟨strings, rfl⟩, rfl, rfl, nofun⟩).congr
        (iff_of_true (fun h => absurd h hcut) trivial)
    | some v =>
      have hgo : (f.scanConst p).1 := hv.mp rfl
      rw [if_pos hgo]
      have himg' : MetalVM.image { vm with strings := strings } = f.data := himg
      refine (ih himg' (f.scanConst_le hp)).bind (B := True) ?_ (by simp [hgo])
      rintro ⟨vs, q⟩ vm' ⟨⟨strings', rfl⟩, hlen, rfl, hplain⟩
      exact .pure ⟨⟨strings', rfl⟩, congrArg (· + 1) hlen, rfl,
        List.forall_mem_cons.mpr ⟨href, hplain⟩⟩

/-- What a pool of constants at `p` leaves, with at most `max` constants recorded. -/
def PoolRead (f : SgvmFile) (p max : ℕ) (vm : MetalVM) (r : ConstPool × ℤ) (vm' : MetalVM) : Prop :=
  (∃ strings, vm' = { vm with strings := strings }) ∧ r.2 = f.poolEnd p ∧
    r.1.count = min (f.poolCount p) max ∧ r.1.decoded.length = min max (f.poolComplete p) ∧
    ConstPool.Plain r.1

theorem reads_loadConstPool (max : ℕ) (himg : vm.image = f.data) (hp : p ≤ f.len) :
    Reads (f.PoolAdds p) (loadConstPool f.len p max) vm (PoolRead f p max vm) := by
  unfold loadConstPool
  refine Reads.cut (n := 2) himg hp (by decide) (fun hcut => ?_) (fun hle => ?_)
  · refine ⟨⟨vm.strings, rfl⟩, ?_, ?_, ?_, nofun⟩
    · simp [SgvmFile.poolEnd, hcut]
    · simp [SgvmFile.poolCount, hcut]
    · simp [SgvmFile.poolComplete, SgvmFile.poolCount, SgvmFile.scanConsts, hcut]
  · have hlen : f.len < 2 ^ 31 := f.length_lt
    have h2 : addInt p 2 = (p + 2 : ℕ) := addInt_nat (n := 2) (by omega)
    have hcount : f.poolCount p = f.leAt 2 p := if_neg (by omega)
    rw [h2]
    refine (reads_loadConsts _ himg hle).bind (B := True) ?_ (iff_of_eq (and_true _)).symm
    rintro ⟨vs, q⟩ vm' ⟨hvm', hvs, rfl, hplain⟩
    refine .pure ⟨hvm', ?_, ?_, ?_, fun v hv => hplain v (List.mem_of_mem_take hv)⟩
    · rw [SgvmFile.poolEnd, if_neg (by omega), hcount]
    · rw [hcount]
    · rw [length_take, hvs, SgvmFile.poolComplete, hcount]

def codeAfter (f : SgvmFile) (p : ℕ) : Option (CodeRef × ℤ) :=
  if f.len < p + 4 then none
  else if (f.len : ℤ) < addInt (p + 4 : ℕ) (toCInt (f.leAt 4 p)) then none
  else some (⟨(p + 4 : ℕ), toCInt (f.leAt 4 p)⟩, addInt (p + 4 : ℕ) (toCInt (f.leAt 4 p)))

theorem reads_loadCode (himg : vm.image = f.data) (hp : p ≤ f.len) :
    Reads (p + 4 < 2 ^ 31) (loadCode f.len p) vm fun r vm' => r = codeAfter f p ∧ vm' = vm := by
  unfold loadCode codeAfter
  refine (Reads.cut (n := 4) (B := True) himg hp (by decide) (fun hcut => ?_) (fun hle => ?_)).congr
    (by simp)
  · exact ⟨(if_pos hcut).symm, rfl⟩
  · have hlen : f.len < 2 ^ 31 := f.length_lt
    have h4 : addInt p 4 = (p + 4 : ℕ) := addInt_nat (n := 4) (by omega)
    rw [h4, if_neg (show ¬ f.len < p + 4 by omega)]
    dsimp only
    split_ifs
    · exact .pure ⟨rfl, rfl⟩
    · exact .pure ⟨rfl, rfl⟩

theorem codeAfter_of_codeOk {c : CodeRef} {q : ℤ} (hok : f.CodeOk p)
    (h : codeAfter f p = some (c, q)) :
    CodeRefIn f.data c ∧ f.CodeFits p ∧ q = f.codeEnd p := by
  unfold codeAfter at h
  split_ifs at h with hcut hlong
  cases h
  have hend : p + 4 + f.leAt 4 p < 2 ^ 31 := hok (by omega)
  rw [toCInt_of_lt (by omega), addInt_nat hend] at hlong ⊢
  have hfits : f.codeEnd p ≤ f.len := by
    unfold SgvmFile.codeEnd
    omega
  refine ⟨⟨by dsimp only; omega, by dsimp only; omega, ?_⟩, ⟨by omega, hfits⟩, rfl⟩
  unfold SgvmFile.codeEnd SgvmFile.len at hfits
  dsimp only
  omega

theorem codeOk_of_codeAfter {c : CodeRef} {q : ℤ} (h : codeAfter f p = some (c, q))
    (hin : CodeRefIn f.data c) : f.CodeOk p := by
  unfold codeAfter at h
  split_ifs at h with hcut hlong
  cases h
  obtain ⟨-, hnonneg, hend⟩ := hin
  have hword : f.leAt 4 p < 2 ^ 31 :=
    lt_of_toCInt_nonneg (by simpa using f.leAt_lt 4 p) hnonneg
  rw [toCInt_of_lt hword] at hend
  have hlen := f.length_lt
  intro _
  unfold SgvmFile.codeEnd
  dsimp only at hend
  omega

end MetalVM
end SageOS
