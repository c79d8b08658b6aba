import Mathlib.Tactic

/-!
# Local arrays

An array of a call starts with no contents. A cell is read only after it has been written, and no
cell outside the array is read or written: anything else is a fault, which ends the computation. A
computation may also leave early with a result.
-/
namespace LocalArray
open List Function
variable {α ε σ : Type} {size n i k : ℕ}

/-- `none` where nothing has been written. -/
abbrev Cells (α : Type) := ℕ → Option α

/-- The error `some e` leaves with the result `e`, the error `none` is a fault. -/
abbrev Access (ε α : Type) := Except (Option ε) α

def fault : Access ε α := .error none

def leave (e : ε) : Access ε α := .error (some e)

def NoFault (m : Access ε α) : Prop := m ≠ .error none

def unwritten : Cells α := fun _ => none

def load (size : ℕ) (b : Cells α) (i : ℕ) : Access ε α :=
  if i < size then
    match b i with
    | some c => .ok c
    | none => fault
  else fault

def put (size : ℕ) (b : Cells α) (i : ℕ) (c : α) : Access ε (Cells α) :=
  if i < size then .ok (update b i (some c)) else fault

def putAll (size : ℕ) : Cells α → ℕ → List α → Access ε (Cells α)
  | b, _, [] => .ok b
  | b, i, c :: cs => do
    let b ← put size b i c
    putAll size b (i + 1) cs

def overwritten (b : Cells α) (i : ℕ) (cs : List α) : Cells α := fun j =>
  if i ≤ j ∧ j < i + cs.length then cs[j - i]? else b j

variable {b : Cells α}

theorem load_of_some {c : α} (hi : i < size) (h : b i = some c) :
    (load size b i : Access ε α) = .ok c := by
  unfold load
  rw [if_pos hi, h]

theorem load_of_none (h : b i = none) : (load size b i : Access ε α) = fault := by
  unfold load
  rw [h]
  split_ifs <;> rfl

theorem put_of_lt {c : α} (hi : i < size) :
    (put size b i c : Access ε (Cells α)) = .ok (update b i (some c)) := if_pos hi

theorem overwritten_cons (b : Cells α) (i : ℕ) (c : α) (cs : List α) :
    overwritten (update b i (some c)) (i + 1) cs = overwritten b i (c :: cs) := by
  funext j
  unfold overwritten
  rw [length_cons]
  by_cases hj : j = i
  · subst hj
    rw [if_neg (by omega), if_pos (by omega), update_self, Nat.sub_self]
    rfl
  · rw [update_of_ne hj]
    by_cases hin : i + 1 ≤ j ∧ j < i + 1 + cs.length
    · rw [if_pos hin, if_pos (by omega), show j - i = j - (i + 1) + 1 by omega, getElem?_cons_succ]
    · rw [if_neg hin, if_neg (by omega)]

theorem overwritten_snoc (b : Cells α) (i : ℕ) (cs : List α) (c : α) :
    update (overwritten b i cs) (i + cs.length) (some c) =
      overwritten b i (cs ++ [c]) := by
  funext j
  unfold overwritten
  rw [length_append, length_singleton]
  by_cases hj : j = i + cs.length
  · rw [hj, update_self, if_pos (by omega), Nat.add_sub_cancel_left,
      getElem?_append_right le_rfl, Nat.sub_self]
    rfl
  · rw [update_of_ne hj]
    by_cases hin : i ≤ j ∧ j < i + cs.length
    · rw [if_pos hin, if_pos (by omega), getElem?_append_left (by omega)]
    · rw [if_neg hin, if_neg (by omega)]

variable {cs : List α}

theorem putAll_of_le (h : i + cs.length ≤ size) :
    (putAll size b i cs : Access ε (Cells α)) = .ok (overwritten b i cs) := by
  induction cs generalizing b i with
  | nil =>
    have hsame : overwritten b i [] = b := by
      funext j
      exact if_neg (by simp)
    rw [hsame]
    rfl
  | cons c cs ih =>
    rw [length_cons] at h
    unfold putAll
    rw [put_of_lt (by omega), ← overwritten_cons]
    exact ih (by omega)

theorem putAll_of_lt (hcs : cs ≠ []) (h : size < i + cs.length) :
    (putAll size b i cs : Access ε (Cells α)) = fault := by
  induction cs generalizing b i with
  | nil => exact absurd rfl hcs
  | cons c cs ih =>
    rw [length_cons] at h
    unfold putAll put
    by_cases hi : i < size
    · rw [if_pos hi]
      refine ih (fun hnil => ?_) (by omega)
      rw [hnil, length_nil] at h
      omega
    · rw [if_neg hi]
      rfl

theorem overwritten_of_notMem {j : ℕ}
    (h : j < i ∨ i + cs.length ≤ j) : overwritten b i cs j = b j := if_neg (by omega)

theorem overwritten_of_mem {j : ℕ} (hi : i ≤ j)
    (hj : j < i + cs.length) : overwritten b i cs j = cs[j - i]? := if_pos ⟨hi, hj⟩

variable [Zero α]

/-- The cells from `i` on hold a string that ends before `size`. -/
def Holds (size : ℕ) (b : Cells α) (i : ℕ) (t : List α) : Prop :=
  0 ∉ t ∧ i + t.length < size ∧ (∀ j < t.length, b (i + j) = t[j]?) ∧ b (i + t.length) = some 0

theorem holds_nil : Holds size b i [] ↔ i < size ∧ b i = some 0 := by
  simp [Holds]

theorem holds_cons {c : α} {t : List α} :
    Holds size b i (c :: t) ↔ c ≠ 0 ∧ b i = some c ∧ Holds size b (i + 1) t := by
  unfold Holds
  constructor
  · rintro ⟨hz, hlen, hcells, hend⟩
    rw [length_cons] at hlen hcells hend
    refine ⟨fun h => hz (by simp [h]), hcells 0 (by omega), fun h => hz (by simp [h]), by omega,
      fun j hj => ?_, ?_⟩
    · rw [Nat.add_right_comm, Nat.add_assoc]
      exact hcells (j + 1) (by omega)
    · rw [Nat.add_right_comm, Nat.add_assoc]
      exact hend
  · rintro ⟨hc, hi, hz, hlen, hcells, hend⟩
    rw [length_cons]
    refine ⟨fun h => ?_, by omega, fun j hj => ?_, ?_⟩
    · rcases mem_cons.mp h with h | h
      · exact hc h.symm
      · exact hz h
    · cases j with
      | zero => exact hi
      | succ j =>
        rw [← Nat.add_assoc, Nat.add_right_comm]
        exact hcells j (by omega)
    · rw [← Nat.add_assoc, Nat.add_right_comm]
      exact hend

theorem holds_overwritten {t cs : List α} (hz : 0 ∉ t) (ht : t ++ [0] <+: cs)
    (hsize : i + cs.length ≤ size) : Holds size (overwritten b i cs) i t := by
  obtain ⟨rest, rfl⟩ := ht
  simp only [length_append, length_singleton] at hsize
  refine ⟨hz, by omega, fun j hj => ?_, ?_⟩
  · rw [overwritten_of_mem (by omega) (by simp; omega), Nat.add_sub_cancel_left,
      getElem?_append_left (by simp; omega), getElem?_append_left hj]
  · rw [overwritten_of_mem (by omega) (by simp), Nat.add_sub_cancel_left,
      getElem?_append_left (by simp), getElem?_append_right le_rfl, Nat.sub_self]
    rfl

/-- Copies up to the first zero, and fills the rest with zeros. -/
def copyFrom [DecidableEq α] (srcSize size : ℕ) (src : Cells α) :
    ℕ → ℕ → Cells α → Access ε (Cells α)
  | 0, _, b => .ok b
  | n + 1, i, b => do
    let c ← load srcSize src i
    if c = 0 then putAll size b i (replicate (n + 1) 0)
    else
      let b ← put size b i c
      copyFrom srcSize size src n (i + 1) b

theorem copyFrom_of_holds [DecidableEq α] {srcSize : ℕ} {src b : Cells α} {t : List α}
    (h : Holds srcSize src i t) (hn : i + n ≤ size) :
    (copyFrom srcSize size src n i b : Access ε (Cells α)) =
      .ok (overwritten b i ((t ++ replicate n 0).take n)) := by
  induction n generalizing i b t with
  | zero => exact putAll_of_le (show i + ([] : List α).length ≤ size by simpa using hn)
  | succ n ih =>
    unfold copyFrom
    cases t with
    | nil =>
      obtain ⟨hi, hend⟩ := holds_nil.mp h
      rw [load_of_some hi hend]
      change (if (0 : α) = 0 then putAll size b i (replicate (n + 1) 0) else _) = _
      rw [if_pos rfl, putAll_of_le (by simpa using hn), nil_append, take_of_length_le (by simp)]
    | cons c t =>
      have hsize := h.2.1
      obtain ⟨hc, hi, hrest⟩ := holds_cons.mp h
      rw [load_of_some (by omega) hi]
      change (if c = 0 then _ else put size b i c >>= copyFrom srcSize size src n (i + 1)) = _
      rw [if_neg hc, put_of_lt (by omega)]
      change copyFrom srcSize size src n (i + 1) _ = _
      have htake : (t ++ replicate (n + 1) 0).take n = (t ++ replicate n 0).take n := by
        rw [take_append, take_append, take_replicate, take_replicate,
          Nat.min_eq_left (by omega), Nat.min_eq_left (by omega)]
      rw [ih hrest (by omega), overwritten_cons, cons_append, take_succ_cons, htake]

end LocalArray
