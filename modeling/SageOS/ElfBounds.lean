import SageOS.ElfAccess

/-!
# Bounds of the ELF loader

What a file and its arguments must satisfy so that no access of the loader is outside. Each part of
the loader gets an equivalence between running without a fault and a condition on the bytes of the
file or the lengths of the arguments. The condition for a whole load is put together from them.
-/
namespace SageOS.Elf
open FaultFree
variable (data : Bytes)
section Reads

theorem succeeds_readByte (offset : ℕ) (Q : UInt8 → Prop) :
    Succeeds (readByte data offset) Q ↔ offset < data.length ∧ Q (data.getD offset 0) := by
  unfold readByte
  by_cases h : offset < data.length
  · simp [h]
  · simp [h]

theorem succeeds_readField {offset n : ℕ} [hn : NeZero n] {Q : ℕ → Prop} :
    Succeeds (readField data offset n) Q ↔ offset + n ≤ data.length ∧ Q (readLE data offset n) := by
  obtain ⟨n, rfl⟩ := Nat.exists_eq_succ_of_ne_zero hn.out
  induction n generalizing offset Q with
  | zero =>
    unfold readField readLE
    rw [Succeeds.bind_iff, succeeds_readByte]
    rfl
  | succ n ih =>
    rw [readField, readLE, Succeeds.bind_iff, succeeds_readByte, Succeeds.bind_iff, ih]
    constructor
    · rintro ⟨-, hlen, hQ⟩
      exact ⟨by omega, hQ⟩
    · rintro ⟨hlen, hQ⟩
      exact ⟨by omega, by omega, hQ⟩

theorem succeeds_validate (machine : ℕ) (Q : Bool → Prop) :
    Succeeds (validate machine data) Q ↔ Q (decide (elfValidate machine data)) := by
  unfold validate
  by_cases h : data.length < 64
  · have hnot : ¬ elfValidate machine data := fun hv => by
      have := hv.1
      omega
    rw [if_pos h, decide_eq_false hnot]
    rfl
  · rw [if_neg h]
    have hv : elfValidate machine data ↔ readLE data 0 4 = 0x464C457F ∧ readLE data 4 1 = 2 ∧
        readLE data 5 1 = 1 ∧ readLE data 16 2 = 2 ∧ readLE data 18 2 = machine ∧
        phoff data ≠ 0 ∧ phnum data ≠ 0 := and_iff_right (Nat.not_lt.mp h)
    have hlen : ∀ a n, a + n ≤ 64 → a + n ≤ data.length := fun a n hn => by omega
    simp (disch := decide) only [Succeeds.bind_iff, Succeeds.pure_iff, succeeds_readField, hlen,
      true_and, decide_eq_decide.mpr hv]
    rfl

end Reads

section Segments

def segmentOffset (i : ℕ) : ℕ := readLE data (phoff data + 56 * i + 8) 8

def segmentFilesz (i : ℕ) : ℕ := readLE data (phoff data + 56 * i + 32) 8

def HeaderInside (i : ℕ) : Prop :=
  phoff data + 56 * i + 4 ≤ data.length ∧
    ((phdr data i).type = 1 → phoff data + 56 * i + 24 ≤ data.length ∧
      (elfVaddrMin ≤ (phdr data i).vaddr → phoff data + 56 * i + 48 ≤ data.length))

/-- The bytes of the segment are in the file, and the larger of its sizes ends in the range. -/
def SegmentFits (i : ℕ) : Prop :=
  (segmentFilesz data i ≠ 0 → segmentOffset data i + segmentFilesz data i ≤ data.length) ∧
    (max (segmentFilesz data i) (phdr data i).memsz ≠ 0 →
      (phdr data i).vaddr + max (segmentFilesz data i) (phdr data i).memsz ≤ elfVaddrMax)

/-- The range check of the loader refuses the segment. -/
def Refused (i : ℕ) : Prop := (phdr data i).type = 1 ∧ ¬ inRange (phdr data i)

def SegmentSound (i : ℕ) : Prop :=
  HeaderInside data i ∧ ((phdr data i).type = 1 → inRange (phdr data i) → SegmentFits data i)

instance (i : ℕ) : Decidable (HeaderInside data i) := inferInstanceAs (Decidable (_ ∧ _))

instance (i : ℕ) : Decidable (SegmentFits data i) := inferInstanceAs (Decidable (_ ∧ _))

instance (i : ℕ) : Decidable (Refused data i) := inferInstanceAs (Decidable (_ ∧ _))

instance (i : ℕ) : Decidable (SegmentSound data i) := inferInstanceAs (Decidable (_ ∧ _))

theorem succeeds_writeSegment (addr : ℕ) (Q : Unit → Prop) :
    Succeeds (writeSegment addr) Q ↔ (elfVaddrMin ≤ addr ∧ addr < elfVaddrMax) ∧ Q () :=
  Succeeds.guard_iff _ Q

theorem succeeds_copySegment {vaddr : ℕ} (hv : elfVaddrMin ≤ vaddr) (offset filesz memsz : ℕ)
    (Q : Unit → Prop) :
    Succeeds (copySegment data vaddr offset filesz memsz) Q ↔
      ((filesz ≠ 0 → offset + filesz ≤ data.length) ∧
        (max filesz memsz ≠ 0 → vaddr + max filesz memsz ≤ elfVaddrMax)) ∧ Q () := by
  have hcopy : ∀ j Q, Succeeds (do
      let _ ← readByte data (offset + j)
      writeSegment (vaddr + j)) Q ↔
        (offset + j < data.length ∧ elfVaddrMin ≤ vaddr + j ∧ vaddr + j < elfVaddrMax) ∧ Q () := by
    intro j Q
    rw [Succeeds.bind_iff, succeeds_readByte, succeeds_writeSegment, ← and_assoc]
  unfold copySegment
  rw [Succeeds.bind_iff, succeeds_repeatFrom hcopy,
    succeeds_repeatFrom fun j Q => succeeds_writeSegment (vaddr + j) Q, ← and_assoc]
  apply and_congr_left
  intro _
  constructor
  · rintro ⟨hfile, hzero⟩
    refine ⟨fun hne => ?_, fun hne => ?_⟩
    · have := hfile (filesz - 1) (by omega) (by omega)
      omega
    · by_cases hle : memsz ≤ filesz
      · have := hfile (filesz - 1) (by omega) (by omega)
        omega
      · have := hzero (memsz - 1) (by omega) (by omega)
        omega
  · rintro ⟨hfile, hrange⟩
    refine ⟨fun j _ hj => ?_, fun j hle hj => ?_⟩
    · omega
    · omega

theorem succeeds_mapSegment (i : ℕ) (Q : Bool → Prop) :
    Succeeds (mapSegment data (phoff data) i) Q ↔
      SegmentSound data i ∧ (Refused data i → Q false) ∧ (¬ Refused data i → Q true) := by
  unfold mapSegment
  rw [Succeeds.bind_iff, succeeds_readField]
  change _ ∧ Succeeds (if (phdr data i).type ≠ 1 then _ else _) Q ↔ _
  by_cases htype : (phdr data i).type = 1
  · rw [if_neg (not_not.mpr htype), Succeeds.bind_iff, succeeds_readField]
    change _ ∧ _ ∧ Succeeds (if (phdr data i).vaddr < elfVaddrMin then _ else _) Q ↔ _
    by_cases hv : (phdr data i).vaddr < elfVaddrMin
    · have hrefused : Refused data i := ⟨htype, fun h => by have := h.1; omega⟩
      have hsound : SegmentSound data i ↔ phoff data + 56 * i + 24 ≤ data.length := by
        constructor
        · intro h
          exact (h.1.2 htype).1
        · intro h
          exact ⟨⟨by omega, fun _ => ⟨h, fun hmin => by omega⟩⟩, fun _ hin => by
            have := hin.1
            omega⟩
      rw [if_pos hv, Succeeds.pure_iff, hsound]
      constructor
      · rintro ⟨-, hlen, hQ⟩
        exact ⟨hlen, fun _ => hQ, fun h => absurd hrefused h⟩
      · rintro ⟨hlen, hQ, -⟩
        exact ⟨by omega, hlen, hQ hrefused⟩
    · rw [if_neg hv, Succeeds.bind_iff, succeeds_readField]
      change _ ∧ _ ∧ _ ∧ Succeeds (if elfVaddrMax <
        ((phdr data i).vaddr + (phdr data i).memsz) % 2 ^ 64 then _ else _) Q ↔ _
      have hmin : elfVaddrMin ≤ (phdr data i).vaddr := Nat.not_lt.mp hv
      have hheader : HeaderInside data i ↔ phoff data + 56 * i + 48 ≤ data.length := by
        constructor
        · intro h
          exact (h.2 htype).2 hmin
        · intro h
          exact ⟨by omega, fun _ => ⟨by omega, fun _ => h⟩⟩
      by_cases hmax : elfVaddrMax < ((phdr data i).vaddr + (phdr data i).memsz) % 2 ^ 64
      · have hrefused : Refused data i := ⟨htype, fun h => by have := h.2; omega⟩
        have hsound : SegmentSound data i ↔ phoff data + 56 * i + 48 ≤ data.length := by
          rw [← hheader]
          exact and_iff_left fun _ hin => absurd hin hrefused.2
        rw [if_pos hmax, Succeeds.pure_iff, hsound]
        constructor
        · rintro ⟨-, -, hlen, hQ⟩
          exact ⟨hlen, fun _ => hQ, fun h => absurd hrefused h⟩
        · rintro ⟨hlen, hQ, -⟩
          exact ⟨by omega, by omega, hlen, hQ hrefused⟩
      · have hin : inRange (phdr data i) := ⟨hmin, Nat.not_lt.mp hmax⟩
        have hnot : ¬ Refused data i := fun h => h.2 hin
        have hsound : SegmentSound data i ↔
            phoff data + 56 * i + 48 ≤ data.length ∧ SegmentFits data i := by
          rw [← hheader]
          exact and_congr_right fun _ => ⟨fun h => h htype hin, fun h _ _ => h⟩
        rw [if_neg hmax, Succeeds.bind_iff, succeeds_readField, Succeeds.bind_iff,
          succeeds_readField, Succeeds.bind_iff]
        change _ ∧ _ ∧ _ ∧ _ ∧ _ ∧ Succeeds (copySegment data (phdr data i).vaddr
          (segmentOffset data i) (segmentFilesz data i) (phdr data i).memsz) _ ↔ _
        rw [succeeds_copySegment data hmin, Succeeds.pure_iff, hsound]
        constructor
        · rintro ⟨-, -, hlen, -, -, hfits, hrest⟩
          exact ⟨⟨hlen, hfits⟩, fun h => absurd h hnot, fun _ => hrest⟩
        · rintro ⟨⟨hlen, hfits⟩, -, hrest⟩
          exact ⟨by omega, by omega, hlen, by omega, by omega, hfits, hrest hnot⟩
  · have hnot : ¬ Refused data i := fun h => htype h.1
    have hsound : SegmentSound data i ↔ phoff data + 56 * i + 4 ≤ data.length := by
      constructor
      · intro h
        exact h.1.1
      · intro h
        exact ⟨⟨h, fun ht => absurd ht htype⟩, fun ht => absurd ht htype⟩
    rw [if_pos htype, Succeeds.pure_iff, hsound]
    exact and_congr_right fun _ => ⟨fun h => ⟨fun hr => absurd hr hnot, fun _ => h⟩,
      fun h => h.2 hnot⟩

/-- Every header that the loop gets to is sound. -/
def SegmentsSound (n i : ℕ) : Prop :=
  ∀ k, i ≤ k → k < i + n → (∀ j, i ≤ j → j < k → ¬ Refused data j) → SegmentSound data k

theorem succeeds_mapSegments (n i : ℕ) (Q : Bool → Prop) :
    Succeeds (mapSegments data (phoff data) n i) Q ↔ SegmentsSound data n i ∧
      ((∃ k, i ≤ k ∧ k < i + n ∧ Refused data k) → Q false) ∧
      ((∀ k, i ≤ k → k < i + n → ¬ Refused data k) → Q true) := by
  induction n generalizing i with
  | zero =>
    have hsound : SegmentsSound data 0 i := fun k hle hlt => by omega
    constructor
    · intro h
      exact ⟨hsound, fun ⟨k, hle, hlt, _⟩ => by omega, fun _ => h⟩
    · intro h
      exact h.2.2 fun k hle hlt => by omega
  | succ n ih =>
    have hbranch : ∀ b, Succeeds (if b = true then mapSegments data (phoff data) n (i + 1)
        else pure false) Q ↔ if b = true then Succeeds (mapSegments data (phoff data) n (i + 1)) Q
          else Q false := by
      intro b
      cases b with
      | true => rfl
      | false => rfl
    rw [mapSegments, Succeeds.bind_iff, Succeeds.congr hbranch, succeeds_mapSegment, if_pos rfl,
      if_neg Bool.false_ne_true, ih]
    by_cases hi : Refused data i
    · constructor
      · rintro ⟨hsound, hQ, -⟩
        refine ⟨fun k hle hlt hbefore => ?_, fun _ => hQ hi, fun hall => ?_⟩
        · rcases Nat.eq_or_lt_of_le hle with rfl | hlt'
          · exact hsound
          · exact absurd hi (hbefore i le_rfl hlt')
        · exact absurd hi (hall i le_rfl (by omega))
      · rintro ⟨hsound, hQ, -⟩
        refine ⟨hsound i le_rfl (by omega) fun j hle hlt => by omega,
          fun _ => hQ ⟨i, le_rfl, by omega, hi⟩, fun h => absurd hi h⟩
    · constructor
      · rintro ⟨hsound, -, hrest⟩
        obtain ⟨hall, hno, hyes⟩ := hrest hi
        refine ⟨fun k hle hlt hbefore => ?_, ?_, fun hnone => ?_⟩
        · rcases Nat.eq_or_lt_of_le hle with rfl | hlt'
          · exact hsound
          · exact hall k hlt' (by omega) fun j hj hjk => hbefore j (by omega) hjk
        · rintro ⟨k, hle, hlt, hk⟩
          rcases Nat.eq_or_lt_of_le hle with rfl | hlt'
          · exact absurd hk hi
          · exact hno ⟨k, hlt', by omega, hk⟩
        · exact hyes fun k hle hlt => hnone k (by omega) (by omega)
      · rintro ⟨hsound, hno, hyes⟩
        refine ⟨hsound i le_rfl (by omega) fun j hle hlt => by omega, fun h => absurd h hi,
          fun _ => ⟨fun k hle hlt hbefore => ?_, ?_, fun hnone => ?_⟩⟩
        · refine hsound k (by omega) (by omega) fun j hj hjk => ?_
          rcases Nat.eq_or_lt_of_le hj with rfl | hlt'
          · exact hi
          · exact hbefore j hlt' hjk
        · rintro ⟨k, hle, hlt, hk⟩
          exact hno ⟨k, by omega, by omega, hk⟩
        · refine hyes fun k hle hlt => ?_
          rcases Nat.eq_or_lt_of_le hle with rfl | hlt'
          · exact hi
          · exact hnone k hlt' (by omega)

end Segments
end SageOS.Elf
