import SageOS.Fat32NameBuffer

/-!
# One name in its arrays

What the accesses to the arrays do with one entry: storing the characters of a long-name entry,
finding the end of the name, copying it and comparing it. With all parts up to the end supplied no
access is bad, and the arrays agree with one that starts with zeros.
-/
namespace SageOS
open LinkedChain LocalArray List Function
namespace NameBuffer
variable {ε : Type} {b : NameBuffer} {ln : LongName} {e : DirEntry}

theorem Short.length_text_le (h : b.Short) : b.text.length ≤ 247 := by
  by_contra hlong
  have hcell := getElem?_textFrom (b := b.cells) (n := 255) (i := 0) (j := 247)
    (show 247 < b.text.length by omega)
  have hlt : 247 < (textFrom b.cells 255 0).length := show 247 < b.text.length by omega
  rw [getElem?_eq_getElem hlt] at hcell
  exact (isLetter_of_mem_textFrom (getElem_mem hlt)).1 (h _ (by omega) _ hcell)

theorem storeChars_eq (endMark : ℕ → Option ℕ) (hmark : ∀ k < 20, endMark (k * 13) = some (k * 13))
    (horder : e.order ≠ 20) : (storeChars endMark b e : Access ε NameBuffer) = .ok (b.store e) := by
  unfold storeChars store
  by_cases hin : 0 < e.order ∧ e.order ≤ 20
  · have hlt : e.order < 20 := by omega
    have hchars : (e.order - 1) * 13 + e.longNameChars.length ≤ 256 := by
      change (e.order - 1) * 13 + 13 ≤ 256
      omega
    rw [if_pos hin, if_pos hin, putAll_of_le hchars]
    dsimp only
    by_cases hlast : e 0 &&& 0x40 ≠ 0
    · rw [if_pos hlast, hmark _ hlt, if_pos hlast]
      change put 256 _ (e.order * 13) 0 >>= _ = _
      rw [put_of_lt (by omega)]
      rfl
    · rw [if_neg hlast, if_neg hlast]
      rfl
  · rw [if_neg hin, if_neg hin]
    rfl

theorem storeChars_fault (endMark : ℕ → Option ℕ) (horder : e.order = 20) :
    (storeChars endMark b e : Access ε NameBuffer) = fault := by
  unfold storeChars
  rw [horder, if_pos (by decide), putAll_of_lt (by simp [DirEntry.longNameChars])
    (show 256 < (20 - 1) * 13 + 13 by decide)]
  rfl

theorem short_store (h : b.Short) (horder : e.order ≠ 20) : (b.store e).Short := by
  intro i hi c hc
  unfold store at hc
  by_cases hin : 0 < e.order ∧ e.order ≤ 20
  · have hold : overwritten b.cells ((e.order - 1) * 13) e.longNameChars i = some c → c = 0 := by
      rw [overwritten_of_notMem (.inr (show (e.order - 1) * 13 + 13 ≤ i by omega))]
      exact h i hi c
    rw [if_pos hin] at hc
    dsimp only at hc
    split_ifs at hc
    · by_cases heq : i = e.order * 13
      · rw [heq, update_self] at hc
        exact (Option.some.inj hc).symm
      · rw [update_of_ne heq] at hc
        exact hold hc
    · exact hold hc
  · rw [if_neg hin] at hc
    exact h i hi c hc

theorem short_clear (h : b.Short) : b.clear.Short := by
  intro i hi c hc
  unfold clear at hc
  dsimp only at hc
  split_ifs at hc
  · by_cases heq : i = b.text.length
    · rw [heq, update_self] at hc
      exact (Option.some.inj hc).symm
    · rw [update_of_ne heq] at hc
      exact h i hi c hc
  · exact h i hi c hc

theorem short_feed (h : b.Short) (ha : b.Allows e) : (b.feed e).Short := by
  unfold feed
  split_ifs with h5 hlong
  · exact h
  · have hallow := ha h5
    rw [if_pos hlong] at hallow
    exact short_store h hallow
  · exact short_clear h

theorem endName_eq (h : b.Short) (hend : (b.cells b.text.length).isSome = true) :
    (endName b.cells : Access ε (Cells UInt8)) =
      .ok (update b.cells b.text.length (some 0)) := by
  have hlen := h.length_text_le
  unfold endName
  rw [nameEnd_eq (by omega) (.inr (by rwa [Nat.zero_add])), Nat.zero_add]
  exact put_of_lt (show b.text.length < 256 by omega)

theorem endName_fault (h : b.Short) (hend : b.cells b.text.length = none) :
    (endName b.cells : Access ε (Cells UInt8)) = fault := by
  have hlen := h.length_text_le
  unfold endName
  rw [nameEnd_fault (show b.text.length < 255 by omega) (by rwa [Nat.zero_add])]
  rfl

theorem holds_text (h : b.Short) :
    Holds 256 (update b.cells b.text.length (some 0)) 0 b.text := by
  have hlen := h.length_text_le
  refine ⟨fun hz => (isLetter_of_mem_textFrom hz).1 rfl, by omega, fun j hj => ?_, ?_⟩
  · rw [update_of_ne (by omega)]
    exact getElem?_textFrom hj
  · rw [Nat.zero_add, update_self]

end NameBuffer

theorem upper_ne_zero {c : UInt8} (h : c ≠ 0) : upper c ≠ 0 := by
  unfold upper
  split_ifs with hletter
  · intro heq
    have hge := UInt8.le_iff_toNat_le.mp hletter.1
    have hle := UInt8.le_iff_toNat_le.mp hletter.2
    have hc := congrArg UInt8.toNat heq
    rw [UInt8.toNat_sub] at hc
    simp only [UInt8.reduceToNat] at hc hge hle
    omega
  · exact h

theorem streqCells_of_holds {ε : Type} {b : Cells UInt8} {i : ℕ} {t name : Bytes}
    (h : Holds 256 b i t) (hname : 0 ∉ name) :
    (streqCells b i name : Access ε Bool) = .ok (streq t name) := by
  induction name generalizing i t with
  | nil =>
    unfold streqCells
    cases t with
    | nil =>
      obtain ⟨hi, hend⟩ := holds_nil.mp h
      rw [load_of_some hi hend]
      rfl
    | cons c t =>
      have hsize := h.2.1
      obtain ⟨hc, hi, -⟩ := holds_cons.mp h
      rw [load_of_some (by omega) hi]
      exact congrArg Except.ok (decide_eq_false (upper_ne_zero hc))
  | cons x name ih =>
    have hx : x ≠ 0 := fun hx => hname (by simp [hx])
    unfold streqCells
    cases t with
    | nil =>
      obtain ⟨hi, hend⟩ := holds_nil.mp h
      rw [load_of_some hi hend]
      exact congrArg Except.ok (decide_eq_false fun heq => upper_ne_zero hx heq.symm)
    | cons c t =>
      have hsize := h.2.1
      obtain ⟨hc, hi, hrest⟩ := holds_cons.mp h
      rw [load_of_some (by omega) hi]
      change (if c = 0 ∨ upper c ≠ upper x then pure (decide (upper c = upper x))
        else streqCells b (i + 1) name) = _
      by_cases heq : upper c = upper x
      · rw [if_neg (by simp [hc, heq]), ih hrest fun hz => hname (mem_cons_of_mem x hz)]
        simp [streq, heq]
      · simp [streq, heq]
        rfl

namespace NameBuffer
variable {ε : Type} {b : NameBuffer} {ln : LongName} {e : DirEntry}

theorem Agrees.text (h : b.Agrees ln) (hend : (b.cells b.text.length).isSome = true) :
    ln.text = b.text := by
  unfold LongName.text
  rw [range_eq_range']
  exact takeWhile_of_agrees h.2 (.inr (by rwa [Nat.zero_add]))

theorem agrees_update {cells : Cells UInt8} {buf : ℕ → UInt8}
    (h : ∀ i c, cells i = some c → buf i = c) (k : ℕ) (v : UInt8) (i : ℕ) (c : UInt8)
    (hc : update cells k (some v) i = some c) : update buf k v i = c := by
  by_cases hi : i = k
  · subst hi
    rw [update_self] at hc ⊢
    exact Option.some.inj hc
  · rw [update_of_ne hi] at hc ⊢
    exact h i c hc

theorem agrees_overwritten {cells : Cells UInt8} {buf : ℕ → UInt8}
    (h : ∀ i c, cells i = some c → buf i = c) (k : ℕ) (cs : Bytes) (i : ℕ) (c : UInt8)
    (hc : overwritten cells k cs i = some c) :
    (if k ≤ i ∧ i < k + cs.length then cs.getD (i - k) 0 else buf i) = c := by
  unfold overwritten at hc
  split_ifs at hc ⊢
  · rw [getD_eq_getElem?_getD, hc]
    rfl
  · exact h i c hc

/-- The lookup and the listing put the end mark at the same place for all order numbers but 20. -/
theorem lfnToName_eq_store (ln : LongName) (horder : e.order ≠ 20) :
    Fat32Scan.lfnToName ln e = ln.store e := by
  change (if 0 < e.order ∧ e.order ≤ 20 then _ else _) =
    if 0 < e.order ∧ e.order ≤ 20 then _ else _
  by_cases hin : 0 < e.order ∧ e.order ≤ 20
  · rw [if_pos hin, if_pos hin]
    by_cases hlast : e 0 &&& 0x40 ≠ 0
    · have hmin : min (e.order * 13) 255 = e.order * 13 := by omega
      rw [if_pos ⟨hlast, show e.order * 13 < 256 by omega⟩, if_pos hlast,
        show min ((e 0 &&& 0x1F).toNat * 13) 255 = _ from hmin]
      rfl
    · rw [if_neg fun h => hlast h.1, if_neg hlast]
  · rw [if_neg hin, if_neg hin]

theorem Agrees.store (h : b.Agrees ln) (horder : e.order ≠ 20) :
    (b.store e).Agrees (ln.store e) := by
  by_cases hin : 0 < e.order ∧ e.order ≤ 20
  · have hchars := agrees_overwritten h.2 ((e.order - 1) * 13) e.longNameChars
    have hmin : min (e.order * 13) 255 = e.order * 13 := by omega
    unfold NameBuffer.store LongName.store
    rw [if_pos hin, if_pos (show 0 < (e 0 &&& 0x1F).toNat ∧ (e 0 &&& 0x1F).toNat ≤ 20 from hin)]
    refine ⟨rfl, ?_⟩
    dsimp only
    by_cases hlast : e 0 &&& 0x40 ≠ 0
    · rw [if_pos hlast, if_pos hlast, show min ((e 0 &&& 0x1F).toNat * 13) 255 = _ from hmin]
      exact agrees_update hchars _ 0
    · rw [if_neg hlast, if_neg hlast]
      exact hchars
  · unfold NameBuffer.store LongName.store
    rw [if_neg hin, if_neg (show ¬ (0 < (e 0 &&& 0x1F).toNat ∧ (e 0 &&& 0x1F).toNat ≤ 20) from hin)]
    exact h

theorem Agrees.clear (h : b.Agrees ln)
    (hend : b.active = true → (b.cells b.text.length).isSome = true) :
    b.clear.Agrees ln.clear := by
  refine ⟨rfl, ?_⟩
  unfold NameBuffer.clear LongName.clear
  rw [← h.1]
  by_cases hactive : b.active = true
  · rw [if_pos hactive, if_pos hactive, h.text (hend hactive)]
    exact agrees_update h.2 _ 0
  · rw [if_neg hactive, if_neg hactive]
    exact h.2

end NameBuffer

theorem holds_cstring {size : ℕ} {b : Cells UInt8} {cs : Bytes} (hsize : cs.length < size) :
    Holds size (overwritten b 0 (cs ++ [0])) 0 (cstring cs) := by
  have hpre : cstring cs ++ [0] <+: cs ++ [0] := by
    unfold cstring
    induction cs with
    | nil => exact prefix_refl _
    | cons c cs ih =>
      by_cases hc : c = 0
      · rw [takeWhile_cons_of_neg (by simp [hc]), hc]
        exact ⟨cs ++ [0], by simp⟩
      · rw [takeWhile_cons_of_pos (by simp [hc])]
        exact cons_prefix_cons.mpr ⟨rfl, ih (by rw [length_cons] at hsize; omega)⟩
  refine holds_overwritten (fun hz => ?_) hpre (by simpa using hsize)
  simpa using mem_takeWhile_imp hz

namespace NameBuffer
variable {ε : Type} {b : NameBuffer} {e : DirEntry}

theorem take_text_initial {t : Bytes} {n : ℕ} (h : t.length < n) :
    t ++ [0] <+: (t ++ replicate n 0).take n := by
  obtain ⟨k, rfl⟩ : ∃ k, n = t.length + (k + 1) := ⟨n - t.length - 1, by omega⟩
  rw [take_append, take_of_length_le (by omega), Nat.add_sub_cancel_left,
    take_replicate, Nat.min_eq_left (by omega), replicate_succ]
  exact ⟨replicate k 0, by simp⟩

theorem zero_notMem_text (b : NameBuffer) : 0 ∉ b.text := fun h =>
  (isLetter_of_mem_textFrom h).1 rfl

theorem clear_cells (hactive : b.active = true) :
    b.clear.cells = update b.cells b.text.length (some 0) := if_pos hactive

theorem clear_cells_of_inactive (hactive : b.active = false) : b.clear.cells = b.cells :=
  if_neg (by simp [hactive])

theorem chars_strncpy {t : Bytes} (hz : 0 ∉ t) : (strncpy 64 t).chars = t.take 63 := by
  have hall : t.takeWhile (· ≠ 0) = t := by
    rw [takeWhile_eq_self_iff]
    exact fun c hc => decide_eq_true fun h => hz (h ▸ hc)
  change (t.takeWhile (· ≠ 0)).take 63 = _
  rw [hall]

theorem findName_eq (h : b.Short) (hend : b.active = true → (b.cells b.text.length).isSome = true) :
    ∃ entryName, (findName b e : Access ε _) = .ok (entryName, b.clear.cells) ∧
      Holds 256 entryName 0 (if b.active then b.text else cstring e.shortName) := by
  have hlen := h.length_text_le
  unfold findName
  cases hactive : b.active with
  | true =>
    rw [if_pos rfl, endName_eq h (hend hactive), clear_cells hactive]
    refine ⟨overwritten unwritten 0 ((b.text ++ replicate 255 0).take 255), ?_, ?_⟩
    · change copyFrom 256 256 _ 255 0 unwritten >>= _ = _
      rw [copyFrom_of_holds (holds_text h) (by omega)]
      rfl
    · rw [if_pos rfl]
      refine holds_overwritten b.zero_notMem_text (take_text_initial (by omega)) ?_
      rw [length_take]
      omega
  | false =>
    have hshort := Fat32Scan.length_shortName_le e
    rw [if_neg (by simp), clear_cells_of_inactive hactive,
      putAll_of_le (show 0 + (e.shortName ++ [0]).length ≤ 256 by simp; omega)]
    exact ⟨_, rfl, holds_cstring (by omega)⟩

theorem listName_eq (h : b.Short) (hend : b.active = true → (b.cells b.text.length).isSome = true) :
    ∃ name, (listName b e : Access ε _) = .ok (name, b.clear.cells) ∧
      Holds 64 name 0 (if b.active then strncpy 64 b.text else Fat32Mount.entryToName e).chars := by
  unfold listName
  cases hactive : b.active with
  | true =>
    let chars := (b.text ++ replicate 63 0).take 63
    have hchars : chars.length = 63 := by simp [chars]
    have hpre : b.text.take 63 ++ [0] <+: chars ++ [0] := by
      by_cases hshort : b.text.length < 63
      · rw [take_of_length_le hshort.le]
        exact (take_text_initial hshort).trans (prefix_append _ _)
      · rw [show chars = b.text.take 63 from take_append_of_le_length (by omega)]
    rw [if_pos rfl, endName_eq h (hend hactive), clear_cells hactive, if_pos rfl, chars_strncpy
      b.zero_notMem_text]
    refine ⟨overwritten unwritten 0 (chars ++ [0]), ?_, ?_⟩
    · change copyFrom 256 64 _ 63 0 unwritten >>= _ = _
      rw [copyFrom_of_holds (holds_text h) (by omega), ← overwritten_snoc, hchars]
      rfl
    · exact holds_overwritten (fun hz => b.zero_notMem_text (mem_of_mem_take hz)) hpre
        (by simp [hchars])
  | false =>
    have hshort := Fat32Scan.length_shortName_le e
    rw [if_neg (by simp), clear_cells_of_inactive hactive,
      putAll_of_le (show 0 + (e.shortName.map lower ++ [0]).length ≤ 64 by simp; omega)]
    refine ⟨_, rfl, ?_⟩
    have hcut : (cstring (e.shortName.map lower)).take 63 = cstring (e.shortName.map lower) := by
      have hle : (cstring (e.shortName.map lower)).length ≤ (e.shortName.map lower).length :=
        (List.takeWhile_prefix _).length_le
      rw [length_map] at hle
      exact take_of_length_le (by omega)
    change Holds 64 _ 0 ((cstring (e.shortName.map lower)).take 63)
    rw [hcut]
    exact holds_cstring (by simp; omega)

theorem listName_fault (h : b.Short) (hactive : b.active = true)
    (hend : b.cells b.text.length = none) : (listName b e : Access ε _) = fault := by
  unfold listName
  rw [if_pos hactive, endName_fault h hend]
  rfl

end NameBuffer
end SageOS
