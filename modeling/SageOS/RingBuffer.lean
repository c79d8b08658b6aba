import Mathlib.Data.Int.ModEq
import Mathlib.Tactic

/-!
# Ring buffers

A ring of `size` slots with two positions and a count. The elements that wait in it are read off
from the tail on. On a sound ring a push appends to them and a pop takes the first one away, so
along a run the elements that went in are those that came out followed by those that wait.
-/
namespace SageOS
open List

structure Ring (α : Type*) where
  size : ℕ
  head : ℕ
  tail : ℕ
  count : ℕ
  slots : ℕ → α

namespace Ring
variable {α : Type*} {r : Ring α}

def push (r : Ring α) (a : α) : Ring α :=
  { r with
    head := (r.head + 1) % r.size
    count := r.count + 1
    slots := Function.update r.slots (r.head % r.size) a }

def pop (r : Ring α) : Ring α :=
  { r with tail := (r.tail + 1) % r.size, count := r.count - 1 }

def front (r : Ring α) : α := r.slots (r.tail % r.size)

def contents (r : Ring α) : List α :=
  (range r.count).map fun i => r.slots ((r.tail + i) % r.size)

structure Sound (r : Ring α) : Prop where
  tail_lt : r.tail < r.size
  head_eq : r.head = (r.tail + r.count) % r.size
  count_le : r.count ≤ r.size

@[simp] theorem length_contents (r : Ring α) : r.contents.length = r.count := by
  simp [contents]

theorem contents_of_count_eq_zero (h : r.count = 0) : r.contents = [] := by
  simp [contents, h]

theorem mod_ne_of_lt {n t i j : ℕ} (hij : i < j) (hj : j < i + n) : (t + i) % n ≠ (t + j) % n := by
  intro heq
  have hdvd : n ∣ t + j - (t + i) := (Nat.modEq_iff_dvd' (by omega)).mp heq
  have hle : n ≤ t + j - (t + i) := Nat.le_of_dvd (by omega) hdvd
  omega

theorem Sound.push (h : r.Sound) (a : α) (hroom : r.count < r.size) : (r.push a).Sound where
  tail_lt := h.tail_lt
  head_eq := by
    change (r.head + 1) % r.size = (r.tail + (r.count + 1)) % r.size
    rw [h.head_eq, Nat.mod_add_mod, Nat.add_assoc]
  count_le := hroom

theorem Sound.pop (h : r.Sound) (hcount : 0 < r.count) : r.pop.Sound where
  tail_lt := Nat.mod_lt _ (Nat.zero_lt_of_lt h.tail_lt)
  head_eq := by
    change r.head = ((r.tail + 1) % r.size + (r.count - 1)) % r.size
    rw [h.head_eq, Nat.mod_add_mod]
    congr 1
    omega
  count_le := by
    have hle := h.count_le
    change r.count - 1 ≤ r.size
    omega

theorem Sound.contents_push (h : r.Sound) (a : α) (hroom : r.count < r.size) :
    (r.push a).contents = r.contents ++ [a] := by
  have hslot : r.head % r.size = (r.tail + r.count) % r.size := by
    rw [h.head_eq, Nat.mod_mod]
  change (range (r.count + 1)).map
    (fun i => Function.update r.slots (r.head % r.size) a ((r.tail + i) % r.size)) = _
  rw [range_succ, map_append, map_singleton, hslot, Function.update_self]
  congr 1
  apply map_congr_left
  intro i hi
  have hlt : i < r.count := mem_range.mp hi
  exact Function.update_of_ne (mod_ne_of_lt hlt (by omega)) _ _

theorem contents_eq_cons (hcount : 0 < r.count) : r.contents = r.front :: r.pop.contents := by
  obtain ⟨n, hn⟩ : ∃ n, r.count = n + 1 := ⟨r.count - 1, by omega⟩
  unfold contents
  rw [hn, range_succ_eq_map, map_cons, map_map]
  congr 1
  change _ = (range (r.count - 1)).map
    (fun i => r.slots (((r.tail + 1) % r.size + i) % r.size))
  rw [hn, Nat.add_sub_cancel]
  apply map_congr_left
  intro i _
  change r.slots ((r.tail + (i + 1)) % r.size) = _
  rw [Nat.mod_add_mod, Nat.add_assoc, Nat.add_comm 1 i]

end Ring
end SageOS
