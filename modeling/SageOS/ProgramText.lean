import SageOS.ProgramFile

/-!
# Lines, counts and arrays of bytecode files

Lines survive when they hold no line end and no NUL, a decimal count is read back up to the largest
`int`, a line of hexadecimal digits always, and an array that grows by doubling takes up to 2 ^ 30
elements.
-/
namespace SageOS
open Reading List Option

/-- Text that survives on a line of its own. -/
def Plain (text : Bytes) : Prop := ∀ c ∈ text, c ≠ newline ∧ c ≠ carriageReturn ∧ c ≠ 0

instance : DecidablePred Plain := fun text =>
  inferInstanceAs (Decidable (∀ c ∈ text, c ≠ newline ∧ c ≠ carriageReturn ∧ c ≠ 0))

theorem Plain.append {a b : Bytes} (ha : Plain a) (hb : Plain b) : Plain (a ++ b) := by
  intro c hc
  rcases mem_append.mp hc with h | h
  · exact ha c h
  · exact hb c h

theorem cText_eq_self {s : Bytes} (h : 0 ∉ s) : cText s = s := by
  apply takeWhile_eq_self_iff.mpr
  intro c hc
  simpa using fun he : c = 0 => h (he ▸ hc)

variable {l : Bytes}

theorem readTrimmedLine_textLine (hl : Plain l) (rest : Bytes) :
    readTrimmedLine (textLine l ++ rest) = some (l, rest) := by
  have hne : ∀ c ∈ l, decide (c ≠ newline) = true := fun c hc => by simpa using (hl c hc).1
  have hfile : textLine l ++ rest = l ++ newline :: rest := by simp [textLine]
  have hline : getline (textLine l ++ rest) = some (textLine l, rest) := by
    unfold getline
    rw [if_neg (by simp [textLine]), hfile, dropWhile_append_of_pos hne,
      takeWhile_append_of_pos hne]
    simp
  have htrim : (textLine l).rdropWhile (fun c => c = newline ∨ c = carriageReturn) = l := by
    unfold textLine
    rw [rdropWhile_concat_pos _ _ _ (by simp)]
    apply rdropWhile_eq_self_iff.mpr
    intro hnil
    have hlast := hl _ (getLast_mem hnil)
    simp [hlast.1, hlast.2.1]
  unfold readTrimmedLine
  rw [hline, map_some, htrim, cText_eq_self fun h0 => (hl 0 h0).2.2 rfl]

theorem undoes_nextLine (hl : Plain l) (eof : String) : Undoes (nextLine eof) (textLine l) l := by
  intro rest
  unfold nextLine
  rw [readTrimmedLine_textLine hl]

variable {c : UInt8}

theorem mem_decimal {n : ℕ} (hc : c ∈ decimal n) : ∃ d < 10, c = UInt8.ofNat (48 + d) := by
  unfold decimal at hc
  split_ifs at hc
  · exact ⟨0, by decide, by simpa using hc⟩
  · simp only [List.mem_reverse, List.mem_map] at hc
    obtain ⟨d, hd, rfl⟩ := hc
    exact ⟨d, Nat.digits_lt_base (by decide) hd, rfl⟩

theorem isDigit_of_mem_decimal {n : ℕ} (hc : c ∈ decimal n) : isDigit c = true := by
  obtain ⟨d, hd, rfl⟩ := mem_decimal hc
  interval_cases d <;> decide

theorem plain_of_digits (h : ∀ c ∈ l, isDigit c = true) : Plain l := by
  intro c hc
  have := h c hc
  refine ⟨?_, ?_, ?_⟩
  all_goals
    rintro rfl
    revert this
    decide

theorem digitsValue_decimal (n : ℕ) : digitsValue (decimal n) = n := by
  unfold decimal digitsValue
  split_ifs with h
  · simp [h]
  · have hfold : ∀ ds : List ℕ, (∀ d ∈ ds, d < 10) →
        ((ds.map fun d => UInt8.ofNat (48 + d)).reverse.foldl
          (fun n c => n * 10 + (c.toNat - 48)) 0) = Nat.ofDigits 10 ds := by
      intro ds hds
      rw [foldl_reverse]
      induction ds with
      | nil => rfl
      | cons d ds ih =>
        have hd : d < 10 := hds d mem_cons_self
        have hmod : (48 + d) % 2 ^ 8 = 48 + d := Nat.mod_eq_of_lt (by omega)
        rw [map_cons, foldr_cons, ih fun x hx => hds x (mem_cons_of_mem d hx),
          Nat.ofDigits_cons, UInt8.toNat_ofNat', hmod]
        omega
    rw [hfold _ fun d hd => Nat.digits_lt_base (by decide) hd, Nat.ofDigits_digits]

theorem decimal_ne_nil (n : ℕ) : decimal n ≠ [] := by
  unfold decimal
  split_ifs with h
  · exact cons_ne_nil _ _
  · simpa using Nat.digits_ne_nil_iff_ne_zero.mpr h

theorem isDigit_spec (h : isDigit c = true) : isSpace c = false ∧ c ≠ 45 ∧ c ≠ 43 := by
  simp only [isDigit, Bool.and_eq_true, decide_eq_true_eq, UInt8.le_iff_toNat_le] at h
  obtain ⟨hlo, hhi⟩ := h
  have hlo' : 48 ≤ c.toNat := hlo
  refine ⟨?_, ?_, ?_⟩
  · simp only [isSpace, Bool.or_eq_false_iff, Bool.and_eq_false_iff, decide_eq_false_iff_not,
      UInt8.le_iff_toNat_le]
    refine ⟨?_, .inr fun h13 => ?_⟩
    · rintro rfl
      exact absurd hlo' (by decide)
    · have h13' : c.toNat ≤ 13 := h13
      omega
  · rintro rfl
    exact absurd hlo' (by decide)
  · rintro rfl
    exact absurd hlo' (by decide)

theorem strtol_digits (h : ∀ x ∈ c :: l, isDigit x = true) :
    strtol (c :: l) = ((digitsValue (c :: l) : ℤ), c :: l, []) := by
  obtain ⟨hspace, hminus, hplus⟩ := isDigit_spec (h c mem_cons_self)
  have htake : (c :: l).takeWhile isDigit = c :: l := takeWhile_eq_self_iff.mpr h
  have hdrop : (c :: l).dropWhile isDigit = [] := dropWhile_eq_nil_iff.mpr h
  have hskip : (c :: l).dropWhile isSpace = c :: l := dropWhile_cons_of_neg (by simp [hspace])
  unfold strtol
  rw [hskip]
  split
  · rename_i heq
    exact absurd (List.cons.inj heq).1 hminus
  · rename_i heq
    exact absurd (List.cons.inj heq).1 hplus
  · dsimp only
    rw [htake, hdrop]

theorem parseNonnegativeInt_decimal {n : ℕ} (hn : n < 2 ^ 31) :
    parseNonnegativeInt (decimal n) = some n := by
  have hstrtol : strtol (decimal n) = ((n : ℤ), decimal n, []) := by
    have hdigits : ∀ x ∈ decimal n, isDigit x = true := fun _ hx => isDigit_of_mem_decimal hx
    have hvalue := digitsValue_decimal n
    cases hd : decimal n with
    | nil => exact absurd hd (decimal_ne_nil n)
    | cons c l =>
      rw [hd] at hdigits hvalue
      rw [strtol_digits hdigits, hvalue]
  have hgood : ¬ (decimal n = [] ∨ ([] : Bytes) ≠ [] ∨ (n : ℤ) < 0 ∨ 0x7fffffff < (n : ℤ)) := by
    simp only [decimal_ne_nil, ne_eq, not_true_eq_false, false_or, not_or]
    omega
  unfold parseNonnegativeInt
  simp only [hstrtol]
  rw [if_neg hgood, Int.toNat_natCast]

theorem undoes_parseCount {n : ℕ} (hn : n < 2 ^ 31) (invalid : String) :
    Undoes (parseCount (decimal n) invalid) [] n := by
  unfold parseCount
  rw [parseNonnegativeInt_decimal hn]
  exact .pure n

theorem plain_decimal (n : ℕ) : Plain (decimal n) :=
  plain_of_digits fun _ hc => isDigit_of_mem_decimal hc

theorem strncmp_head {head : Bytes} (hhead : Plain head) (text : Bytes) :
    strncmp (head ++ text) head head.length = 0 :=
  (strncmp_length_eq_zero_iff _ _ fun h0 => (hhead 0 h0).2.2 rfl).mpr (prefix_append _ _)

theorem undoes_countAfter {head : String} (hhead : Plain (bytes head)) (missing invalid : String)
    {n : ℕ} (hn : n < 2 ^ 31) : Undoes (countAfter head missing invalid) (countLine head n) n := by
  have hline : Undoes (lineAfter head missing) (countLine head n) (decimal n) := by
    refine (undoes_nextLine (hhead.append (plain_decimal n)) missing).bind (v := []) ?_
      (append_nil _).symm
    rw [if_pos (strncmp_head hhead _), drop_left]
    exact .pure _
  exact hline.bind (undoes_parseCount hn invalid) (append_nil _).symm

theorem hexValue_hexDigit {v : ℕ} (h : v < 16) : hexValue (hexDigit v) = some v := by
  interval_cases v <;> decide

theorem plain_hexDigit {v : ℕ} (h : v < 16) : Plain [hexDigit v] := by
  interval_cases v <;> decide +kernel

theorem plain_hex (bs : Bytes) : Plain (bs.flatMap hexPair) := by
  intro c hc
  obtain ⟨b, -, hb⟩ := mem_flatMap.mp hc
  have hlt := b.toNat_lt
  have hhigh := plain_hexDigit (v := b.toNat / 16) (by omega)
  have hlow := plain_hexDigit (v := b.toNat % 16) (by omega)
  exact hhigh.append hlow c hb

theorem length_hex (bs : Bytes) : (bs.flatMap hexPair).length = bs.length * 2 := by
  induction bs with
  | nil => rfl
  | cons b bs ih =>
    rw [flatMap_cons, length_append, ih, length_cons]
    change 2 + _ = _
    omega

theorem decodeHexPairs_hex (bs : Bytes) : decodeHexPairs (bs.flatMap hexPair) = some bs := by
  induction bs with
  | nil => rfl
  | cons b bs ih =>
    have hlt := b.toNat_lt
    have hbyte : UInt8.ofNat (b.toNat / 16 * 16 + b.toNat % 16) = b := by
      rw [Nat.div_add_mod']
      exact UInt8.ofNat_toNat
    change decodeHexPairs (hexDigit _ :: hexDigit _ :: bs.flatMap hexPair) = _
    simp only [decodeHexPairs, hexValue_hexDigit (v := b.toNat / 16) (by omega),
      hexValue_hexDigit (v := b.toNat % 16) (by omega), ih]
    change some (UInt8.ofNat _ :: bs) = _
    rw [hbyte]

theorem undoes_hexLine (bs : Bytes) (eof invalid : String) :
    Undoes (hexLine bs.length eof invalid) (writeHexLine bs) bs := by
  have hdecode : decodeHexLine (bs.flatMap hexPair) bs.length = some bs := by
    unfold decodeHexLine
    rw [if_neg (not_not_intro (length_hex bs)), decodeHexPairs_hex]
  refine (undoes_nextLine (plain_hex bs) eof).bind (v := []) ?_ (append_nil _).symm
  rw [hdecode]
  exact .pure _

theorem undoes_expectLine {text : String} (htext : Plain (bytes text)) (missing : String) :
    Undoes (expectLine text missing) (textLine (bytes text)) () := by
  have hzero : strcmp (bytes text) (bytes text) = 0 := by
    apply (strcmp_eq_zero_iff _ _ fun h0 => (htext 0 h0).2.2 rfl).mpr
    exact ⟨prefix_rfl, by simp⟩
  refine (undoes_nextLine htext missing).bind (v := []) ?_ (by simp)
  rw [if_pos hzero]
  exact .pure _

namespace Growing
variable {α : Type}

/-- The capacity is 0 or a power of two. -/
def Sized (g : Growing α) : Prop :=
  (g.capacity = 0 ∧ g.items = []) ∨ ∃ k ≤ 30, g.capacity = 2 ^ k ∧ g.items.length ≤ 2 ^ k

theorem sized_empty : Sized ({} : Growing α) := Or.inl ⟨rfl, rfl⟩

theorem Sized.exists_append {g : Growing α} (h : g.Sized) {i : ℕ} (hi : i ≤ 30) (a : α)
    (hroom : g.items.length + 1 ≤ 2 ^ 30) : ∃ g' : Growing α, g'.items = g.items ++ [a] ∧
      g'.Sized ∧ Undoes (g.append (2 ^ i) a) [] g' := by
  have hlen : (g.items ++ [a]).length = g.items.length + 1 := by simp
  unfold Growing.append
  by_cases hfit : g.items.length + 1 ≤ g.capacity
  · rw [if_pos hfit]
    refine ⟨⟨g.items ++ [a], g.capacity⟩, rfl, .inr ?_, .pure _⟩
    rcases h with ⟨hcap, -⟩ | ⟨k, hk, hcap, -⟩
    · omega
    · exact ⟨k, hk, hcap, by dsimp only; omega⟩
  rw [if_neg hfit]
  rcases h with ⟨hcap, hitems⟩ | ⟨k, hk, hcap, hle⟩
  · have hpow : (2 : ℕ) ^ i ≤ 2 ^ 30 := Nat.pow_le_pow_right (by decide) hi
    have hpos := Nat.two_pow_pos i
    rw [if_pos hcap, if_pos (by omega)]
    refine ⟨⟨g.items ++ [a], 2 ^ i⟩, rfl, .inr ⟨i, hi, rfl, ?_⟩, .pure _⟩
    simp only [hitems, nil_append, length_singleton]
    omega
  · have hne : k ≠ 30 := by
      rintro rfl
      omega
    have hpos := Nat.two_pow_pos k
    have hpow : (2 : ℕ) ^ k * 2 ≤ 2 ^ 30 := by
      rw [← pow_succ]
      exact Nat.pow_le_pow_right (by decide) (by omega)
    have hpositive : ¬ g.capacity = 0 := by omega
    rw [if_neg hpositive, if_pos (by omega)]
    refine ⟨⟨g.items ++ [a], g.capacity * 2⟩, rfl, .inr ⟨k + 1, by omega, ?_, ?_⟩, .pure _⟩
    · rw [hcap, pow_succ]
    · dsimp only
      rw [pow_succ]
      omega

end Growing

section
variable {α : Type} {read : FileReader α} {write : α → Bytes} {l : List α}
  (hread : ∀ a ∈ l, Undoes read (write a) a)

include hread

theorem Growing.Sized.exists_readMany {g : Growing α} (h : g.Sized) {i : ℕ} (hi : i ≤ 30)
    (hroom : g.items.length + l.length ≤ 2 ^ 30) : ∃ g' : Growing α, g'.items = g.items ++ l ∧
      Undoes (readMany (2 ^ i) read l.length g) (l.flatMap write) g' := by
  induction l generalizing g with
  | nil => exact ⟨g, (append_nil _).symm, .pure g⟩
  | cons a l ih =>
    rw [length_cons] at hroom
    obtain ⟨g₁, hitems, hsized, happend⟩ := h.exists_append hi a (by omega)
    have hlen : g₁.items.length = g.items.length + 1 := by simp [hitems]
    obtain ⟨g', hitems', hmany⟩ :=
      ih (fun b hb => hread b (mem_cons_of_mem a hb)) hsized (by omega)
    refine ⟨g', by simp [hitems', hitems], ?_⟩
    exact (hread a mem_cons_self).bind (happend.check hmany) rfl

theorem exists_readAll {n i : ℕ} (hn : n = 2 ^ i) (hi : i ≤ 30) (hlen : l.length ≤ 2 ^ 30) :
    ∃ g : Growing α, g.items = l ∧ Undoes (readMany n read l.length {}) (l.flatMap write) g := by
  rw [hn]
  exact Growing.sized_empty.exists_readMany hread hi (by simpa using hlen)

end

theorem isSome_doubleUntil {needed : ℕ} (hneed : needed ≤ 2 ^ 30) (fuel k : ℕ) (hk : k ≤ 30)
    (hfuel : 30 - k < fuel) : (doubleUntil needed fuel (2 ^ k)).isSome = true := by
  induction fuel generalizing k with
  | zero => omega
  | succ fuel ih =>
    unfold doubleUntil
    by_cases hle : needed ≤ 2 ^ k
    · rw [if_pos hle]
      rfl
    · have hlast : k ≠ 30 := by
        rintro rfl
        exact hle hneed
      have hlt : (2 : ℕ) ^ (k + 1) < 2 ^ 31 := Nat.pow_lt_pow_right (by decide) (by omega)
      rw [if_neg hle, ← pow_succ, if_pos hlt]
      exact ih (k + 1) (by omega) (by omega)

theorem undoes_ensureCodeCapacity {n : ℕ} (hn : n ≤ 2 ^ 30) :
    Undoes (ensureCodeCapacity n) [] () := by
  have hsome : (doubleUntil n 31 64).isSome = true :=
    isSome_doubleUntil hn 31 6 (by decide) (by decide)
  obtain ⟨capacity, hcap⟩ := Option.isSome_iff_exists.mp hsome
  unfold ensureCodeCapacity
  rw [hcap]
  split_ifs
  · exact .pure ()
  · exact .pure ()

end SageOS
