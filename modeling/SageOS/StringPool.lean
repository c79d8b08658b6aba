import SageOS.GuardedRun
import SageOS.MetalVm

/-!
# The string pool of the bytecode machine

The pool is the concatenation of its strings, each with its terminator. Interning a string that
is in the pool returns its offset; any other string is put at the end if there is room. A text with
zero bytes is added as the strings between them. So offsets stay valid when the pool grows, and
interning is canonical until a string does not fit.
-/
namespace SageOS
open GuardedRun List MetalValue

def poolOf (ss : List Bytes) : Bytes := ss.flatMap fun s => s ++ [0]

def poolOffset (ss : List Bytes) (s : Bytes) : ℕ := (poolOf (ss.takeWhile (· ≠ s))).length

def addString (ss : List Bytes) (s : Bytes) : List Bytes := if s ∈ ss then ss else ss ++ [s]

variable {ss ts : List Bytes} {s : Bytes}

theorem poolOf_append (ss ts : List Bytes) : poolOf (ss ++ ts) = poolOf ss ++ poolOf ts :=
  flatMap_append

theorem poolOf_cons (s : Bytes) (ss : List Bytes) : poolOf (s :: ss) = s ++ 0 :: poolOf ss := by
  simp [poolOf]

theorem mem_addString (ss : List Bytes) (s : Bytes) : s ∈ addString ss s := by
  unfold addString
  split_ifs with h
  · exact h
  · simp

theorem prefix_addString (ss : List Bytes) (s : Bytes) : ss <+: addString ss s := by
  unfold addString
  split_ifs
  · exact prefix_rfl
  · exact prefix_append ss [s]

theorem nulFree_addString (hss : ∀ t ∈ ss, 0 ∉ t) (hs : 0 ∉ s) : ∀ t ∈ addString ss s, 0 ∉ t := by
  unfold addString
  split_ifs
  · exact hss
  · intro t ht
    rcases mem_append.mp ht with ht | ht
    · exact hss t ht
    · rwa [mem_singleton.mp ht]

theorem poolOffset_of_prefix (h : ss <+: ts) (hs : s ∈ ss) : poolOffset ts s = poolOffset ss s := by
  obtain ⟨us, rfl⟩ := h
  unfold poolOffset
  congr 2
  induction ss with
  | nil => cases hs
  | cons t ss ih =>
    by_cases ht : t = s
    · simp [ht]
    · have hs' : s ∈ ss := (mem_cons.mp hs).resolve_left (Ne.symm ht)
      simpa [ht] using ih hs'

theorem takeWhile_terminated {s : Bytes} (hs : 0 ∉ s) (rest : Bytes) :
    (s ++ 0 :: rest).takeWhile (· ≠ 0) = s := by
  have hall : ∀ c ∈ s, decide (c ≠ 0) = true := fun c hc => by
    simpa using fun he : c = 0 => hs (he ▸ hc)
  rw [takeWhile_append_of_pos hall]
  simp

theorem cstrAt_pool (pre ss : List Bytes) (hs : 0 ∉ s) :
    cstrAt (poolOf (pre ++ s :: ss)) (poolOf pre).length = s := by
  unfold cstrAt
  rw [poolOf_append, drop_left, poolOf_cons, takeWhile_terminated hs]

theorem internSearch_pool (pre : List Bytes) (hss : ∀ t ∈ ss, 0 ∉ t) (fuel : ℕ)
    (hfuel : ss.length < fuel) :
    internSearch (poolOf (pre ++ ss)) s fuel (poolOf pre).length =
      if s ∈ ss then some ((poolOf pre).length + poolOffset ss s) else none := by
  induction ss generalizing pre fuel with
  | nil =>
    cases fuel with
    | zero => rfl
    | succ fuel => simp [internSearch]
  | cons t ss ih =>
    cases fuel with
    | zero => simp at hfuel
    | succ fuel =>
      have hlt : (poolOf pre).length < (poolOf (pre ++ t :: ss)).length := by
        simp only [poolOf_append, poolOf_cons, length_append, length_cons]
        omega
      unfold internSearch
      rw [if_pos hlt, cstrAt_pool pre ss (hss t mem_cons_self)]
      by_cases ht : t = s
      · simp [poolOffset, ht, poolOf]
      · have hnext : (poolOf pre).length + t.length + 1 = (poolOf (pre ++ [t])).length := by
          rw [poolOf_append]
          simp only [poolOf, flatMap_cons, flatMap_nil, append_nil, length_append, length_singleton]
          omega
        have hsplit : pre ++ t :: ss = (pre ++ [t]) ++ ss := by simp
        have hoff : poolOffset (t :: ss) s = t.length + 1 + poolOffset ss s := by
          unfold poolOffset
          rw [takeWhile_cons_of_pos (by simpa using ht), poolOf_cons]
          simp only [length_append, length_cons]
          omega
        have hmem : s ∈ t :: ss ↔ s ∈ ss := by
          rw [mem_cons, or_iff_right (Ne.symm ht)]
        rw [if_neg ht, hnext, hsplit, ih (pre ++ [t]) (fun x hx =>
          hss x (mem_cons_of_mem t hx)) fuel (by simpa using hfuel)]
        simp only [hmem]
        congr 2
        omega

theorem length_le_poolOf (ss : List Bytes) : ss.length ≤ (poolOf ss).length := by
  induction ss with
  | nil => exact le_rfl
  | cons t ss ih =>
    simp only [poolOf_cons, length_cons, length_append]
    omega

theorem poolOffset_append_singleton (hs : s ∉ ss) :
    poolOffset (ss ++ [s]) s = (poolOf ss).length := by
  have hall : ∀ t ∈ ss, decide (t ≠ s) = true := fun t ht => by
    simpa using fun he : t = s => hs (he ▸ ht)
  unfold poolOffset
  rw [takeWhile_append_of_pos hall]
  simp

theorem metalStringIntern_eq (hss : ∀ t ∈ ss, 0 ∉ t) : metalStringIntern (poolOf ss) s =
    if s ∈ ss then ((poolOffset ss s : ℤ), poolOf ss)
    else if metalStringPool < (poolOf ss).length + s.length + 1 then (-1, poolOf ss)
    else ((poolOf ss).length, poolOf ss ++ s ++ [0]) := by
  have hlen := length_le_poolOf ss
  have hsearch := internSearch_pool (s := s) [] hss ((poolOf ss).length + 1) (by omega)
  rw [nil_append] at hsearch
  have hzero : (poolOf ([] : List Bytes)).length = 0 := rfl
  rw [hzero, Nat.zero_add] at hsearch
  unfold metalStringIntern
  rw [hsearch]
  by_cases hs : s ∈ ss
  · rw [if_pos hs, if_pos hs]
  · rw [if_neg hs, if_neg hs]

theorem metalStringIntern_pool (hss : ∀ t ∈ ss, 0 ∉ t)
    (hroom : (poolOf (addString ss s)).length ≤ metalStringPool) :
    metalStringIntern (poolOf ss) s =
      ((poolOffset (addString ss s) s : ℤ), poolOf (addString ss s)) := by
  rw [metalStringIntern_eq hss]
  unfold addString at *
  by_cases hs : s ∈ ss
  · simp only [if_pos hs]
  · have hpool : poolOf (ss ++ [s]) = poolOf ss ++ s ++ [0] := by simp [poolOf]
    rw [if_neg hs, hpool, length_append, length_append, length_singleton] at hroom
    rw [if_neg hs, if_neg (Nat.not_lt.mpr hroom), if_neg hs, poolOffset_append_singleton hs, hpool]

theorem split_at_first (hs : s ∈ ss) : ∃ t, ss = ss.takeWhile (· ≠ s) ++ s :: t := by
  induction ss with
  | nil => cases hs
  | cons u ss ih =>
    by_cases hu : u = s
    · exact ⟨ss, by simp [hu]⟩
    · obtain ⟨t, ht⟩ := ih ((mem_cons.mp hs).resolve_left (Ne.symm hu))
      refine ⟨t, ?_⟩
      rw [takeWhile_cons_of_pos (by simpa using hu), cons_append, ← ht]

theorem poolOffset_lt (hs : s ∈ ss) : poolOffset ss s < (poolOf ss).length := by
  obtain ⟨t, ht⟩ := split_at_first hs
  have hlen := congrArg (fun l => (poolOf l).length) ht
  simp only [poolOf_append, poolOf_cons, length_append, length_cons] at hlen
  unfold poolOffset
  omega

theorem metalStringGet_pool (hs : s ∈ ss) (hnul : 0 ∉ s) :
    metalStringGet (poolOf ss) (poolOffset ss s) = s := by
  have hlt := poolOffset_lt hs
  obtain ⟨t, ht⟩ := split_at_first hs
  have hat : cstrAt (poolOf ss) (poolOffset ss s) = s := by
    have h := cstrAt_pool (ss.takeWhile (· ≠ s)) t hnul
    rwa [← ht] at h
  unfold metalStringGet
  rw [if_neg (by omega), Int.toNat_natCast, hat]

theorem MetalValue.int_ofInt {n : ℕ} (t : MetalValueType) (h : n < 2 ^ 31) :
    (MetalValue.ofInt t n).int = n := by
  have hmod : ((n : ℤ) % 2 ^ 32).toNat = n := by omega
  have hbits : (UInt64.ofNat n).toNat = n := by
    rw [UInt64.toNat_ofNat']
    omega
  unfold ofInt int
  rw [hmod, hbits, toCInt_of_lt h]

/-- The strings of a pool, each up to its terminating zero. -/
def poolStrings (pool : Bytes) : List Bytes := (pool.splitOnP (· == 0)).dropLast

theorem poolStrings_poolOf (hss : ∀ t ∈ ss, 0 ∉ t) : poolStrings (poolOf ss) = ss := by
  have hsplit : (poolOf ss).splitOnP (· == 0) = ss ++ [[]] := by
    induction ss with
    | nil => rfl
    | cons t ss ih =>
      obtain ⟨ht, hss⟩ := forall_mem_cons.mp hss
      rw [poolOf_cons, splitOnP_append_cons_of_forall_mem (by grind) 0 rfl, ih hss]
      rfl
  rw [poolStrings, hsplit, dropLast_concat]

theorem exists_poolOf (s : Bytes) : ∃ ts, (∀ t ∈ ts, 0 ∉ t) ∧ s ++ [0] = poolOf ts := by
  induction s with
  | nil => exact ⟨[[]], by simp, rfl⟩
  | cons c s ih =>
    obtain ⟨ts, hts, heq⟩ := ih
    by_cases hc : c = 0
    · exact ⟨[] :: ts, by simpa using hts, by rw [poolOf_cons, ← heq, hc]; rfl⟩
    · cases ts with
      | nil => simp [poolOf] at heq
      | cons t ts =>
        refine ⟨(c :: t) :: ts, ?_, by rw [cons_append, heq, poolOf_cons, poolOf_cons]; rfl⟩
        simpa [Ne.symm hc] using hts

/-- What the machine interns: a text that it is given, or two strings joined. -/
inductive InternOp
  | intern (s : Bytes)
  | concat (a b : ℤ)

namespace InternOp

def wanted (pool : Bytes) : InternOp → Bytes
  | .intern s => s
  | .concat a b => metalStringGet pool a ++ metalStringGet pool b

def exec (pool : Bytes) : InternOp → ℤ × Bytes
  | .intern s => metalStringIntern pool s
  | .concat a b => metalStringConcat pool a b

def Short (pool : Bytes) : InternOp → Prop
  | .intern _ => True
  | .concat a b => ((InternOp.concat a b).wanted pool).length ≤ 4096

/-- A joined string is short enough, and the string is in the pool or there is room for it. -/
def Fits (pool : Bytes) (op : InternOp) : Prop :=
  op.Short pool ∧ (op.wanted pool ∈ poolStrings pool ∨
    pool.length + (op.wanted pool).length + 1 ≤ metalStringPool)

variable {pool : Bytes} {op : InternOp}

theorem exec_of_short (h : op.Short pool) :
    op.exec pool = metalStringIntern pool (op.wanted pool) := by
  cases op with
  | intern s => rfl
  | concat a b => exact if_neg (Nat.not_lt.mpr h)

theorem exec_of_long (h : ¬ op.Short pool) : op.exec pool = (-1, pool) := by
  cases op with
  | intern s => exact absurd trivial h
  | concat a b => exact if_pos (Nat.lt_of_not_le h)

end InternOp

/-- A pool with the texts that were interned and the indices returned for them. -/
structure InternRun where
  pool : Bytes := []
  handed : List (Bytes × ℤ) := []

namespace InternRun

def step (r : InternRun) (op : InternOp) : InternRun where
  pool := (op.exec r.pool).2
  handed := (op.wanted r.pool, (op.exec r.pool).1) :: r.handed

def Fits (r : InternRun) (op : InternOp) : Prop := 0 ∉ op.wanted r.pool → op.Fits r.pool

/-- Every string without a zero byte has an index, which still leads to it, and indices and values
are equal exactly if the strings are. -/
def Canonical (r : InternRun) : Prop :=
  ∀ e ∈ r.handed, 0 ∉ e.1 → 0 ≤ e.2 ∧ metalStringGet r.pool e.2 = e.1 ∧
    ∀ e' ∈ r.handed, 0 ∉ e'.1 → (e.2 = e'.2 ↔ e.1 = e'.1) ∧
      (metalEqual (.ofInt .str e.2) (.ofInt .str e'.2) = true ↔ e.1 = e'.1)

structure Sound (r : InternRun) (ss : List Bytes) : Prop where
  nulFree : ∀ t ∈ ss, 0 ∉ t
  pool : r.pool = poolOf ss
  room : r.pool.length ≤ metalStringPool
  handed : ∀ e ∈ r.handed, 0 ∉ e.1 → e.1 ∈ ss ∧ e.2 = poolOffset ss e.1

variable {r : InternRun}

theorem Sound.canonical (h : r.Sound ss) : r.Canonical := by
  have hint : ∀ e ∈ r.handed, 0 ∉ e.1 → (ofInt .str e.2).int = e.2 := by
    intro e he hnul
    obtain ⟨hmem, hidx⟩ := h.handed e he hnul
    have hlt := poolOffset_lt hmem
    have hroom := h.room
    rw [h.pool] at hroom
    unfold metalStringPool at hroom
    rw [hidx, int_ofInt _ (by omega)]
  intro e he hnul
  obtain ⟨hmem, hidx⟩ := h.handed e he hnul
  have hget := metalStringGet_pool hmem hnul
  rw [← hidx, ← h.pool] at hget
  refine ⟨by omega, hget, fun e' he' hnul' => ?_⟩
  obtain ⟨hmem', hidx'⟩ := h.handed e' he' hnul'
  have hget' := metalStringGet_pool hmem' hnul'
  rw [← hidx', ← h.pool] at hget'
  have hiff : e.2 = e'.2 ↔ e.1 = e'.1 :=
    ⟨fun heq => by rw [← hget, ← hget', heq], fun heq => by rw [hidx, hidx', heq]⟩
  refine ⟨hiff, ?_⟩
  have heq : metalEqual (.ofInt .str e.2) (.ofInt .str e'.2) = true ↔
      (ofInt .str e.2).int = (ofInt .str e'.2).int := decide_eq_true_iff
  rw [heq, hint e he hnul, hint e' he' hnul', hiff]

theorem Sound.extend (h : r.Sound ss) {ts : List Bytes} (hpre : ss <+: ts)
    (hts : ∀ t ∈ ts, 0 ∉ t) (hroom : (poolOf ts).length ≤ metalStringPool) {e : Bytes × ℤ}
    (he : 0 ∉ e.1 → e.1 ∈ ts ∧ e.2 = poolOffset ts e.1) : Sound ⟨poolOf ts, e :: r.handed⟩ ts := by
  refine ⟨hts, rfl, hroom, fun x hx hnul => ?_⟩
  rcases mem_cons.mp hx with rfl | hx
  · exact he hnul
  · obtain ⟨hmem, hidx⟩ := h.handed x hx hnul
    exact ⟨hpre.subset hmem, by rw [hidx, poolOffset_of_prefix hpre hmem]⟩

theorem Sound.exec_of_not_fits (h : r.Sound ss) {op : InternOp} (hop : ¬ op.Fits r.pool) :
    op.exec r.pool = (-1, r.pool) := by
  by_cases hshort : op.Short r.pool
  · have hnot : ¬ (_ ∨ _) := fun hin => hop ⟨hshort, hin⟩
    rw [InternOp.exec_of_short hshort]
    rw [h.pool, poolStrings_poolOf h.nulFree, not_or, not_le] at hnot
    rw [h.pool, metalStringIntern_eq h.nulFree, if_neg hnot.1, if_pos hnot.2]
  · exact InternOp.exec_of_long hshort

theorem Sound.step (h : r.Sound ss) {op : InternOp} (hop : r.Fits op) :
    ∃ ts, (r.step op).Sound ts := by
  have hroom : (poolOf ss).length ≤ metalStringPool := h.pool ▸ h.room
  by_cases hfits : op.Fits r.pool
  · obtain ⟨hshort, hin⟩ := hfits
    have hexec := InternOp.exec_of_short hshort
    rw [h.pool, poolStrings_poolOf h.nulFree] at hin
    unfold InternRun.step
    rw [hexec, h.pool, metalStringIntern_eq h.nulFree]
    by_cases hmem : op.wanted (poolOf ss) ∈ ss
    · rw [if_pos hmem]
      exact ⟨ss, h.extend prefix_rfl h.nulFree hroom fun _ => ⟨hmem, rfl⟩⟩
    · obtain ⟨ts, hts, heq⟩ := exists_poolOf (op.wanted (poolOf ss))
      have hnew : poolOf ss ++ op.wanted (poolOf ss) ++ [0] = poolOf (ss ++ ts) := by
        rw [poolOf_append, append_assoc, heq]
      have hfull := hin.resolve_left hmem
      rw [if_neg hmem, if_neg (by omega), hnew]
      refine ⟨ss ++ ts, h.extend (prefix_append ss ts) ?_ ?_ fun hnul => ?_⟩
      · exact fun t ht => (mem_append.mp ht).elim (h.nulFree t) (hts t)
      · rw [← hnew, length_append, length_append]
        exact hfull
      · have hone : poolStrings (poolOf [op.wanted (poolOf ss)]) = [op.wanted (poolOf ss)] :=
          poolStrings_poolOf (by simpa using hnul)
        rw [poolOf_cons, show poolOf [] = [] from rfl, heq, poolStrings_poolOf hts] at hone
        rw [hone, poolOffset_append_singleton hmem]
        exact ⟨by simp, rfl⟩
  · have hnul : 0 ∈ op.wanted r.pool := not_not.mp fun hnul => hfits (hop hnul)
    unfold InternRun.step
    rw [h.exec_of_not_fits hfits, h.pool] at *
    exact ⟨ss, h.extend prefix_rfl h.nulFree hroom fun hnot => absurd hnul hnot⟩

theorem mem_handed_run {e : Bytes × ℤ} (he : e ∈ r.handed) (ops : List InternOp) :
    e ∈ (run InternRun.step r ops).handed := by
  induction ops generalizing r with
  | nil => exact he
  | cons op ops ih => exact ih (mem_cons_of_mem _ he)

theorem Sound.canonical_run_iff (h : r.Sound ss) (ops : List InternOp) :
    (run InternRun.step r ops).Canonical ↔ Guarded InternRun.step Fits r ops := by
  induction ops generalizing r ss with
  | nil => exact iff_of_true h.canonical trivial
  | cons op ops ih =>
    constructor
    · intro hrun
      have hop : r.Fits op := by
        intro hnul
        by_contra hfits
        have hidx := (hrun _ (mem_handed_run (r := r.step op) mem_cons_self ops) hnul).1
        rw [h.exec_of_not_fits hfits] at hidx
        exact (Int.negSucc_not_nonneg 0).mp hidx
      obtain ⟨ts, hts⟩ := h.step hop
      exact ⟨hop, (ih hts).mp hrun⟩
    · rintro ⟨hop, hops⟩
      obtain ⟨ts, hts⟩ := h.step hop
      exact (ih hts).mpr hops

/-- Interning is canonical in exactly the runs in which every string without a zero byte fits. -/
theorem interning_canonical_iff (ops : List InternOp) :
    (run InternRun.step {} ops).Canonical ↔ Guarded InternRun.step Fits {} ops := by
  have hinit : Sound {} [] := ⟨by simp, rfl, by decide, by simp⟩
  exact hinit.canonical_run_iff ops

theorem long_strings_share_index :
    (run InternRun.step {} [.intern (replicate metalStringPool 97),
      .intern (replicate metalStringPool 98)]).handed.map (·.2) = [-1, -1] := by
  have hfull (c : UInt8) : metalStringIntern [] (replicate metalStringPool c) = (-1, []) := by
    have h : metalStringIntern (poolOf []) (replicate metalStringPool c) = _ :=
      metalStringIntern_eq (by simp)
    rwa [if_neg (by simp), if_pos (by simp [poolOf])] at h
  simp [InternRun.step, InternOp.exec, hfull]

end InternRun
end SageOS
