import SageOS.ElfBounds

/-!
# Loading stays in bounds

The remaining parts of a load: the headers that `sys_execve` reads before the file is validated,
and the arguments that are pushed on the stack block. A load makes no access outside and returns a
negative code when it returns, exactly for the files and arguments described here.
-/
namespace SageOS.Elf
open FaultFree List
variable (data : Bytes)

def SpanHeaderInside (i : ℕ) : Prop :=
  phoff data + 56 * i + 4 ≤ data.length ∧
    ((phdr data i).type = 1 → phoff data + 56 * i + 48 ≤ data.length)

instance (i : ℕ) : Decidable (SpanHeaderInside data i) := inferInstanceAs (Decidable (_ ∧ _))

theorem succeeds_spanFrom (n i : ℕ) (s : ℕ × ℕ) :
    Succeeds (spanFrom data (phoff data) n i s) (fun _ => True) ↔
      ∀ k, i ≤ k → k < i + n → SpanHeaderInside data k := by
  induction n generalizing i s with
  | zero => exact iff_of_true trivial fun k hle hlt => by omega
  | succ n ih =>
    have hstep : (∀ k, i ≤ k → k < i + (n + 1) → SpanHeaderInside data k) ↔
        SpanHeaderInside data i ∧ ∀ k, i + 1 ≤ k → k < i + 1 + n → SpanHeaderInside data k := by
      constructor
      · intro h
        exact ⟨h i le_rfl (by omega), fun k hle hlt => h k (by omega) (by omega)⟩
      · rintro ⟨hi, hrest⟩ k hle hlt
        rcases Nat.eq_or_lt_of_le hle with rfl | hlt'
        · exact hi
        · exact hrest k hlt' (by omega)
    rw [spanFrom, Succeeds.bind_iff, succeeds_readField, hstep]
    change _ ∧ Succeeds (if (phdr data i).type = 1 then _ else _) _ ↔ _
    by_cases htype : (phdr data i).type = 1
    · have hheader : SpanHeaderInside data i ↔ phoff data + 56 * i + 48 ≤ data.length :=
        ⟨fun h => h.2 htype, fun h => ⟨by omega, fun _ => h⟩⟩
      rw [if_pos htype, Succeeds.bind_iff, succeeds_readField, Succeeds.bind_iff,
        succeeds_readField, ih, hheader]
      constructor
      · rintro ⟨-, -, hlen, hrest⟩
        exact ⟨hlen, hrest⟩
      · rintro ⟨hlen, hrest⟩
        exact ⟨by omega, by omega, hlen, hrest⟩
    · have hheader : SpanHeaderInside data i ↔ phoff data + 56 * i + 4 ≤ data.length :=
        ⟨fun h => h.1, fun h => ⟨h, fun ht => absurd ht htype⟩⟩
      rw [if_neg htype, ih, hheader]

section Arguments

theorem succeeds_writeStack (offset : ℤ) (Q : Unit → Prop) :
    Succeeds (writeStack offset) Q ↔ (0 ≤ offset ∧ offset < stackSize) ∧ Q () :=
  Succeeds.guard_iff _ Q

variable {sp : ℤ}

theorem succeeds_writeBlock (hsp : sp ≤ stackSize) {n : ℕ} (hn : n ≠ 0) (Q : Unit → Prop) :
    Succeeds (repeatFrom (fun j => writeStack (sp - (n : ℕ) + j)) n 0) Q ↔ n ≤ sp ∧ Q () := by
  rw [succeeds_repeatFrom fun j Q => succeeds_writeStack _ Q]
  apply and_congr_left
  intro _
  constructor
  · intro h
    have := (h 0 le_rfl (by omega)).1
    omega
  · intro h j _ hj
    constructor
    · omega
    · omega

def stringBytes (strings : List CStr) : ℕ := (strings.map fun s => s.chars.length + 1).sum

theorem stringBytes_reverse (strings : List CStr) :
    stringBytes strings.reverse = stringBytes strings := by
  unfold stringBytes
  rw [map_reverse, sum_reverse]

theorem succeeds_pushStrings (h0 : 0 ≤ sp) (hsp : sp ≤ stackSize) (strings : List CStr)
    (Q : ℤ → Prop) :
    Succeeds (pushStrings sp strings) Q ↔
      stringBytes strings ≤ sp ∧ Q (sp - stringBytes strings) := by
  induction strings generalizing sp with
  | nil =>
    change Q sp ↔ ((0 : ℕ) : ℤ) ≤ sp ∧ Q (sp - (0 : ℕ))
    rw [Nat.cast_zero, sub_zero, and_iff_right h0]
  | cons s rest ih =>
    have hbytes : stringBytes (s :: rest) = s.chars.length + 1 + stringBytes rest :=
      sum_cons
    have hsub : sp - (s.chars.length + 1 : ℕ) - stringBytes rest =
        sp - stringBytes (s :: rest) := by
      rw [hbytes]
      push_cast
      ring
    unfold pushStrings pushString
    rw [Succeeds.bind_iff, Succeeds.bind_iff, succeeds_writeBlock hsp (Nat.succ_ne_zero _),
      Succeeds.pure_iff]
    constructor
    · rintro ⟨hle, hrest⟩
      rw [ih (by omega) (by omega), hsub] at hrest
      exact ⟨by omega, hrest.2⟩
    · rintro ⟨hle, hQ⟩
      refine ⟨by omega, ?_⟩
      rw [ih (by omega) (by omega), hsub]
      exact ⟨by omega, hQ⟩

theorem succeeds_pushWords (hsp : sp ≤ stackSize) {n : ℕ} (hn : n ≠ 0) (Q : ℤ → Prop) :
    Succeeds (pushWords sp n) Q ↔ (8 * n : ℕ) ≤ sp ∧ Q (sp - (8 * n : ℕ)) := by
  unfold pushWords
  rw [Succeeds.bind_iff, succeeds_writeBlock hsp (by omega), Succeeds.pure_iff]

/-- The strings and the words below them, each rounded up to 16 bytes, fit the stack block. -/
def ArgumentsFit (argv envp : List CStr) : Prop :=
  (stringBytes argv + stringBytes envp + 15) / 16 * 16 +
    (8 * (argv.length + envp.length + 3) + 15) / 16 * 16 ≤ stackSize

instance (argv envp : List CStr) : Decidable (ArgumentsFit argv envp) :=
  inferInstanceAs (Decidable (_ ≤ _))

theorem succeeds_pushAllWords (hsp : sp ≤ stackSize) (argc envc : ℕ) (Q : ℤ → Prop) : Succeeds (do
      let sp ← pushWords sp (envc + 1)
      let sp ← pushWords sp (argc + 1)
      pushWords sp 1) Q ↔
    (8 * (argc + envc + 3) : ℕ) ≤ sp ∧ Q (sp - (8 * (argc + envc + 3) : ℕ)) := by
  have hsum : sp - (8 * (envc + 1) : ℕ) - (8 * (argc + 1) : ℕ) - (8 * 1 : ℕ) =
      sp - (8 * (argc + envc + 3) : ℕ) := by omega
  rw [Succeeds.bind_iff, succeeds_pushWords hsp (Nat.succ_ne_zero _), Succeeds.bind_iff]
  constructor
  · rintro ⟨henv, hrest⟩
    rw [succeeds_pushWords (by omega) (Nat.succ_ne_zero _),
      succeeds_pushWords (by omega) Nat.one_ne_zero, hsum] at hrest
    exact ⟨by omega, hrest.2.2⟩
  · rintro ⟨hle, hQ⟩
    refine ⟨by omega, ?_⟩
    rw [succeeds_pushWords (by omega) (Nat.succ_ne_zero _),
      succeeds_pushWords (by omega) Nat.one_ne_zero, hsum]
    exact ⟨by omega, by omega, hQ⟩

theorem succeeds_pushArguments (stack : StackBlock) (argv envp : List CStr) :
    Succeeds (pushArguments stack argv envp) (fun _ => True) ↔ ArgumentsFit argv envp := by
  have haligned := stack.aligned
  have hsize : (stackSize : ℤ) = 65536 := rfl
  unfold pushArguments ArgumentsFit
  rw [Succeeds.bind_iff, succeeds_pushStrings (by omega) le_rfl, stringBytes_reverse]
  by_cases henv : (stringBytes envp : ℤ) ≤ stackSize
  · rw [and_iff_right henv, Succeeds.bind_iff, succeeds_pushStrings (by omega) (by omega),
      stringBytes_reverse]
    by_cases hpad : (8 + (argv.length + 1) * 8 + (envp.length + 1) * 8) % 16 ≠ 0
    · rw [succeeds_pushAllWords (by omega), and_iff_left trivial]
      omega
    · rw [succeeds_pushAllWords (by omega), and_iff_left trivial]
      omega
  · exact iff_of_false (fun h => henv h.1) (by omega)

end Arguments

/-- Without a fault, control passes to the program or a negative code is returned. -/
def Contained (r : Loading (Option ℤ)) : Prop := Succeeds r fun code => ∀ c ∈ code, c < 0

/-- A file is refused by its header, or every program header that is reached is sound and then a
segment is refused, there is no stack block, or the arguments fit it. -/
def Loadable (machine : ℕ) (argv envp : List CStr) (stack : Option StackBlock) : Prop :=
  elfValidate machine data → SegmentsSound data (phnum data) 0 ∧
    ((∀ i < phnum data, ¬ Refused data i) → stack.isSome → ArgumentsFit argv envp)

theorem contained_refusal : Contained (pure (some (-1)) : Loading (Option ℤ)) := by
  rintro c ⟨⟩
  decide

theorem contained_start (argv envp : List CStr) (stack : Option StackBlock) :
    Contained (match stack with
      | none => pure (some (-1))
      | some stack => do
        let _ ← pushArguments stack argv envp
        pure none) ↔ (stack.isSome → ArgumentsFit argv envp) := by
  cases stack with
  | none => exact iff_of_true contained_refusal nofun
  | some stack =>
    have htrue : ∀ a : ℤ, Succeeds (pure none : Loading (Option ℤ))
        (fun code => ∀ c ∈ code, c < 0) ↔ True := fun _ => iff_of_true nofun trivial
    unfold Contained
    rw [Succeeds.bind_iff, Succeeds.congr htrue, succeeds_pushArguments]
    exact ⟨fun h _ => h, fun h => h rfl⟩

theorem contained_exec (machine : ℕ) (argv envp : List CStr) (stack : Option StackBlock) :
    Contained (exec machine data argv envp stack) ↔ Loadable data machine argv envp stack := by
  unfold Contained exec Loadable
  rw [Succeeds.bind_iff, succeeds_validate]
  by_cases hv : elfValidate machine data
  · have hlen := hv.1
    rw [decide_eq_true hv, if_pos rfl, Succeeds.bind_iff, succeeds_readField,
      Succeeds.bind_iff, succeeds_readField, Succeeds.bind_iff,
      and_iff_right (show 32 + 8 ≤ data.length by omega),
      and_iff_right (show 56 + 2 ≤ data.length by omega)]
    refine (succeeds_mapSegments data (phnum data) 0 _).trans ?_
    constructor
    · rintro ⟨hsound, -, hrun⟩ _
      refine ⟨hsound, fun hnone => ?_⟩
      exact (contained_start argv envp stack).mp (hrun fun k _ hk => hnone k (by omega))
    · intro h
      obtain ⟨hsound, hfit⟩ := h hv
      refine ⟨hsound, fun _ => contained_refusal, fun hnone => ?_⟩
      exact (contained_start argv envp stack).mpr
        (hfit fun k hk => hnone k (Nat.zero_le k) (by omega))
  · rw [decide_eq_false hv]
    exact iff_of_true contained_refusal fun h => absurd h hv

/-- The buffer is allocated and filled, the fields of the header and the program headers lie in the
file, and the file is loadable. -/
def Executable (env : LoadEnv) (argv envp : List CStr) : Prop :=
  env.buffer = true ∧ env.fileRead = true ∧ 58 ≤ data.length ∧
    (∀ i < phnum data, SpanHeaderInside data i) ∧ Loadable data env.machine argv envp env.stack

theorem contained_execve (env : LoadEnv) (argv envp : List CStr) :
    Contained (execve env data argv envp) ↔ Executable data env argv envp := by
  unfold execve Executable
  by_cases hbuffer : data.length = 0 ∨ env.buffer = false
  · rw [if_pos hbuffer]
    apply iff_of_false
    · intro h
      exact absurd (h _ rfl) (by decide)
    · rintro ⟨hb, -, hlen, -⟩
      rcases hbuffer with h | h
      · omega
      · exact absurd (hb.symm.trans h) (by decide)
  · rw [not_or, Bool.not_eq_false] at hbuffer
    rw [if_neg (by simp [hbuffer.1, hbuffer.2])]
    by_cases hread : env.fileRead = false
    · rw [if_pos hread]
      apply iff_of_false
      · intro h
        exact absurd (h _ rfl) (by decide)
      · rintro ⟨-, hr, -⟩
        exact absurd (hr.symm.trans hread) (by decide)
    · rw [if_neg hread]
      rw [Bool.not_eq_false] at hread
      unfold Contained
      rw [Succeeds.bind_iff, succeeds_readField, Succeeds.bind_iff,
        succeeds_readField, Succeeds.bind_iff, Succeeds.const_iff]
      have hspan := succeeds_spanFrom data (phnum data) 0 (2 ^ 64 - 1, 0)
      have hall : (∀ k, 0 ≤ k → k < 0 + phnum data → SpanHeaderInside data k) ↔
          ∀ i < phnum data, SpanHeaderInside data i :=
        ⟨fun h i hi => h i (Nat.zero_le i) (by omega), fun h k _ hk => h k (by omega)⟩
      have hexec := contained_exec data env.machine argv envp env.stack
      constructor
      · rintro ⟨-, hlen, hs, he⟩
        exact ⟨hbuffer.2, hread, by omega, hall.mp (hspan.mp hs), hexec.mp he⟩
      · rintro ⟨-, -, hlen, hs, he⟩
        exact ⟨by omega, by omega, hspan.mpr (hall.mpr hs), hexec.mpr he⟩

/-- For every file, every arguments and whatever the arena gives, the loader makes no access outside
and returns only negative codes exactly when the file and the arguments meet the conditions. -/
theorem loads_stay_inside_iff (env : LoadEnv) (data : Bytes) (argv envp : List CStr) :
    (Contained (exec env.machine data argv envp env.stack) ↔
        Loadable data env.machine argv envp env.stack) ∧
      (Contained (execve env data argv envp) ↔ Executable data env argv envp) :=
  ⟨contained_exec data env.machine argv envp env.stack, contained_execve data env argv envp⟩

/-- The header of an x86-64 executable with one program header at `phoff`. -/
def header (phoff : UInt8) : Bytes :=
  [0x7F, 0x45, 0x4C, 0x46, 2, 1, 1, 0, 0, 0, 0, 0, 0, 0, 0, 0, 2, 0, 62, 0, 1, 0, 0, 0] ++
    replicate 8 0 ++ [phoff, 0, 0, 0, 0, 0, 0, 0] ++ replicate 16 0 ++
    [1, 0, 0, 0, 0, 0, 0, 0]

/-- A segment of two bytes at the last address of the range that asks for no memory. -/
def lastSegment : Bytes :=
  [1, 0, 0, 0, 0, 0, 0, 0] ++ [120, 0, 0, 0, 0, 0, 0, 0] ++ [0xFF, 0xFF, 0xFF, 0xFE, 0, 0, 0, 0] ++
    replicate 8 0 ++ [2, 0, 0, 0, 0, 0, 0, 0] ++ replicate 16 0 ++ [0xC3, 0xC3]

/-- A program header outside the file, a segment that leaves the range, a file without a header and
an empty file. -/
theorem loads_leave_their_memory : exec 62 (header 200) [] [] none = .error (.file 200) ∧
    exec 62 (header 64 ++ lastSegment) [] [] none = .error (.segment elfVaddrMax) ∧
    execve ⟨62, true, true, none⟩ [0x7F] [] [] = .error (.file 32) ∧
    execve ⟨62, true, true, none⟩ [] [] [] = .ok (some 28) :=
  ⟨by decide +kernel, by decide +kernel, by decide +kernel, by decide +kernel⟩

end SageOS.Elf
