import SageOS.ArenaBlocks
import SageOS.ElfLoadSafety

/-!
# The stack of a new process

`elf_exec` copies the strings of the environment and of the arguments to the top of the stack block,
the last one first, and puts the two pointer arrays and the argument count below them. The strings
are outside the block. Addresses do not go below the block when the arguments fit.
-/
namespace SageOS
open List FaultFree
namespace Elf

/-- Bytes written from an address on. -/
def store (mem : ℕ → UInt8) (p : ℕ) (bs : Bytes) : ℕ → UInt8 := fun x =>
  if p ≤ x ∧ x < p + bs.length then bs.getD (x - p) 0 else mem x

/-- Values of eight bytes, lowest byte first. -/
def words (ws : List ℕ) : Bytes :=
  ws.flatMap fun w => (range 8).map fun i => (w / 2 ^ (8 * i)).toUInt8

/-- The copies of strings below an address, from the last string to the first, with their
addresses. -/
def copyStrings (sp : ℕ) (mem : ℕ → UInt8) : List CStr → ℕ × (ℕ → UInt8) × List ℕ
  | [] => (sp, mem, [])
  | s :: rest =>
    let r := copyStrings sp mem rest
    let sp := r.1 - (s.chars.length + 1)
    (sp, store r.2.1 sp (s.chars ++ [0]), sp :: r.2.2)

/-- The stack pointer and the memory at the jump to the program. -/
def initialStack (block : ℕ) (mem : ℕ → UInt8) (argv envp : List CStr) : ℕ × (ℕ → UInt8) :=
  let env := copyStrings (block + stackSize) mem envp
  let arg := copyStrings env.1 env.2.1 argv
  let sp := arg.1 / 16 * 16
  let size := 8 + (argv.length + 1) * 8 + (envp.length + 1) * 8
  let sp := if size % 16 ≠ 0 then sp - 8 else sp
  let sp := sp - (envp.length + 1) * 8
  let mem := store arg.2.1 sp (words (env.2.2 ++ [0]))
  let sp := sp - (argv.length + 1) * 8
  let mem := store mem sp (words (arg.2.2 ++ [0]))
  let sp := sp - 8
  (sp, store mem sp (words [argv.length]))

/-- The bytes are in memory from an address on. -/
def Holds (mem : ℕ → UInt8) (p : ℕ) (bs : Bytes) : Prop :=
  ∀ i < bs.length, bs[i]? = some (mem (p + i))

/-- Pointers to copies of strings that lie one behind the other between two addresses. -/
structure Copies (mem : ℕ → UInt8) (lo hi : ℕ) (ptrs : List ℕ) (strings : List CStr) : Prop where
  length : ptrs.length = strings.length
  inside : ∀ c ∈ ptrs.zip strings, lo ≤ c.1 ∧ c.1 + c.2.chars.length + 1 ≤ hi ∧
    Holds mem c.1 (c.2.chars ++ [0])
  apart : (ptrs.zip strings).Pairwise fun a b => a.1 + a.2.chars.length + 1 ≤ b.1

variable {mem : ℕ → UInt8} {p lo mid hi : ℕ} {bs cs : Bytes}

theorem holds_store : Holds (store mem p bs) p bs := by
  intro i hi
  unfold store
  simp [hi]

theorem store_above {x : ℕ} (hx : p + bs.length ≤ x) : store mem p bs x = mem x :=
  if_neg (by omega)

theorem Holds.congr {mem' : ℕ → UInt8} (h : Holds mem p bs) (hmem : ∀ x, p ≤ x → mem' x = mem x) :
    Holds mem' p bs := by
  intro i hi
  rw [hmem _ (Nat.le_add_right p i)]
  exact h i hi

theorem Holds.append (h : Holds mem p bs) (h' : Holds mem (p + bs.length) cs) :
    Holds mem p (bs ++ cs) := by
  intro i hi
  rw [length_append] at hi
  by_cases hlt : i < bs.length
  · rw [getElem?_append_left hlt]
    exact h i hlt
  · rw [getElem?_append_right (not_lt.mp hlt), h' (i - bs.length) (by omega), Nat.add_assoc,
      Nat.add_sub_cancel' (not_lt.mp hlt)]

theorem length_words (ws : List ℕ) : (words ws).length = 8 * ws.length := by
  unfold words
  simp [length_flatMap, Nat.mul_comm]

theorem words_append (ws ws' : List ℕ) : words (ws ++ ws') = words ws ++ words ws' :=
  flatMap_append

namespace Copies
variable {ptrs ptrs' : List ℕ} {strings strings' : List CStr}

theorem congr {mem' : ℕ → UInt8} (h : Copies mem lo hi ptrs strings)
    (hmem : ∀ x, lo ≤ x → mem' x = mem x) : Copies mem' lo hi ptrs strings where
  length := h.length
  inside c hc := by
    obtain ⟨hlo, hhi, hholds⟩ := h.inside c hc
    exact ⟨hlo, hhi, hholds.congr fun x hx => hmem x (hlo.trans hx)⟩
  apart := h.apart

theorem mono (h : Copies mem lo hi ptrs strings) {lo' hi' : ℕ} (hlo : lo' ≤ lo) (hhi : hi ≤ hi') :
    Copies mem lo' hi' ptrs strings where
  length := h.length
  inside c hc := by
    obtain ⟨hlo', hhi', hholds⟩ := h.inside c hc
    exact ⟨hlo.trans hlo', hhi'.trans hhi, hholds⟩
  apart := h.apart

theorem append (h : Copies mem lo mid ptrs strings) (h' : Copies mem mid hi ptrs' strings')
    (hlo : lo ≤ mid) (hhi : mid ≤ hi) :
    Copies mem lo hi (ptrs ++ ptrs') (strings ++ strings') where
  length := by rw [length_append, length_append, h.length, h'.length]
  inside := by
    rw [zip_append h.length]
    exact forall_mem_append.mpr ⟨(h.mono le_rfl hhi).inside, (h'.mono hlo le_rfl).inside⟩
  apart := by
    rw [zip_append h.length]
    refine pairwise_append.mpr ⟨h.apart, h'.apart, fun a ha b hb => ?_⟩
    exact (h.inside a ha).2.1.trans (h'.inside b hb).1

end Copies

/-- The copies take as many bytes as the strings with their terminators. -/
theorem copies_copyStrings {sp : ℕ} (mem : ℕ → UInt8) {strings : List CStr}
    (h : stringBytes strings ≤ sp) :
    let r := copyStrings sp mem strings
    r.1 = sp - stringBytes strings ∧ Copies r.2.1 r.1 sp r.2.2 strings ∧
      ∀ x, sp ≤ x → r.2.1 x = mem x := by
  induction strings with
  | nil => exact ⟨rfl, ⟨rfl, nofun, .nil⟩, fun _ _ => rfl⟩
  | cons s rest ih =>
    have hbytes : stringBytes (s :: rest) = s.chars.length + 1 + stringBytes rest := sum_cons
    obtain ⟨hsp, hcopies, hframe⟩ := ih (by omega)
    have hlen : (s.chars ++ [0]).length = s.chars.length + 1 := length_append
    have hnew : Copies (store (copyStrings sp mem rest).2.1
        ((copyStrings sp mem rest).1 - (s.chars.length + 1)) (s.chars ++ [0]))
        ((copyStrings sp mem rest).1 - (s.chars.length + 1)) (copyStrings sp mem rest).1
        [(copyStrings sp mem rest).1 - (s.chars.length + 1)] [s] :=
      ⟨rfl, forall_mem_singleton.mpr ⟨le_rfl, by dsimp only; omega, holds_store⟩,
        pairwise_singleton _ _⟩
    have hkept : ∀ x, (copyStrings sp mem rest).1 ≤ x → (copyStrings sp mem (s :: rest)).2.1 x =
        (copyStrings sp mem rest).2.1 x := fun x hx => store_above (by rw [hlen]; omega)
    refine ⟨?_, hnew.append (hcopies.congr hkept) (by omega) (by omega),
      fun x hx => (hkept x (by omega)).trans (hframe x hx)⟩
    change (copyStrings sp mem rest).1 - (s.chars.length + 1) = _
    omega

theorem copies_initialStack (block : StackBlock) (mem : ℕ → UInt8) {argv envp : List CStr}
    (hfit : ArgumentsFit argv envp) :
    let r := initialStack block.addr mem argv envp
    r.1 % 16 = 0 ∧ block.addr ≤ r.1 ∧ ∃ aps eps : List ℕ, aps.length = argv.length ∧
      Holds r.2 r.1 (words (argv.length :: (aps ++ 0 :: (eps ++ [0])))) ∧
      Copies r.2 (r.1 + 8 * (argv.length + envp.length + 3)) (block.addr + stackSize) (aps ++ eps)
        (argv ++ envp) := by
  have haligned := block.aligned
  unfold ArgumentsFit at hfit
  obtain ⟨henv, hcenv, -⟩ := copies_copyStrings mem
    (show stringBytes envp ≤ block.addr + stackSize by omega)
  unfold initialStack
  generalize copyStrings (block.addr + stackSize) mem envp = env at henv hcenv
  obtain ⟨esp, emem, eps⟩ := env
  dsimp only at henv hcenv ⊢
  obtain ⟨harg, hcarg, hframe⟩ := copies_copyStrings emem (show stringBytes argv ≤ esp by omega)
  generalize copyStrings esp emem argv = arg at harg hcarg hframe
  obtain ⟨asp, amem, aps⟩ := arg
  dsimp only at harg hcarg hframe ⊢
  obtain ⟨top, htop⟩ : ∃ top, top = if (8 + (argv.length + 1) * 8 + (envp.length + 1) * 8) % 16 ≠ 0
    then asp / 16 * 16 - 8 else asp / 16 * 16 := ⟨_, rfl⟩
  rw [← htop]
  obtain ⟨sp, hsp, hmod, hlow⟩ : ∃ sp, top = sp + 8 * (argv.length + envp.length + 3) ∧
      sp % 16 = 0 ∧ block.addr ≤ sp := by
    refine ⟨top - 8 * (argv.length + envp.length + 3), ?_⟩
    split_ifs at htop <;> omega
  have hle : top ≤ asp := by split_ifs at htop <;> omega
  have hlen := hcarg.length
  have hlen' := hcenv.length
  have he : top - (envp.length + 1) * 8 = sp + 8 * (argv.length + 2) := by omega
  have ha : sp + 8 * (argv.length + 2) - (argv.length + 1) * 8 = sp + 8 := by omega
  rw [he, ha, Nat.add_sub_cancel]
  have hall := (hcarg.append (hcenv.congr hframe) (by omega) (by omega)).mono
    (show sp + 8 * (argv.length + envp.length + 3) ≤ asp by omega) le_rfl
  refine ⟨hmod, hlow, aps, eps, hlen, ?_, hall.congr fun x hx => ?_⟩
  · have hargc : words (argv.length :: (aps ++ 0 :: (eps ++ [0]))) =
        words [argv.length] ++ (words (aps ++ [0]) ++ words (eps ++ [0])) := by
      rw [← words_append, ← words_append]
      simp
    have hsecond : sp + 8 + (words (aps ++ [0])).length = sp + 8 * (argv.length + 2) := by
      rw [length_words, length_append, hlen, length_singleton]
      omega
    rw [hargc]
    refine holds_store.append (Holds.congr ?_ fun x hx => store_above hx)
    refine holds_store.append (Holds.congr ?_ fun x hx => store_above hx)
    rw [hsecond]
    exact holds_store
  · rw [store_above, store_above, store_above]
    all_goals
      simp only [length_words, length_append, length_singleton]
      omega

/-- The guarded model of these copies ends at the same place, as an offset in the block. -/
theorem pushArguments_initialStack (block : StackBlock) (mem : ℕ → UInt8) {argv envp : List CStr}
    (hfit : ArgumentsFit argv envp) : Succeeds (pushArguments block argv envp) fun sp =>
      block.addr + sp = (initialStack block.addr mem argv envp).1 := by
  have haligned := block.aligned
  have hsize : stackSize = 65536 := rfl
  unfold ArgumentsFit at hfit
  obtain ⟨henv, -⟩ := copies_copyStrings mem
    (show stringBytes envp ≤ block.addr + stackSize by omega)
  obtain ⟨harg, -⟩ := copies_copyStrings (copyStrings (block.addr + stackSize) mem envp).2.1
    (show stringBytes argv ≤ (copyStrings (block.addr + stackSize) mem envp).1 by omega)
  unfold pushArguments initialStack
  dsimp only
  rw [harg, henv, Succeeds.bind_iff, succeeds_pushStrings (by omega) le_rfl, Succeeds.bind_iff,
    stringBytes_reverse, succeeds_pushStrings (by omega) (by omega), stringBytes_reverse]
  split_ifs
  · rw [succeeds_pushAllWords (by omega)]
    omega
  · rw [succeeds_pushAllWords (by omega)]
    omega

/-- There is a stack block only if there are blocks for the two pointer arrays. -/
theorem pointerArrays_of_stack {a : Arena} (ha : a.Tidy) {argc envc : ℕ}
    (hargc : (argc + 1) * 8 ≤ stackSize) (henvc : (envc + 1) * 8 ≤ stackSize)
    (h : (allocStack a argc envc).1 = true) :
    a.sageMalloc ((argc + 1) * 8) ≠ none ∧
      (a.requested ((argc + 1) * 8)).sageMalloc ((envc + 1) * 8) ≠ none := by
  have hsize : stackSize = 65536 := rfl
  have hstack : ((a.requested ((argc + 1) * 8)).requested ((envc + 1) * 8)).sageMalloc stackSize ≠
      none := by
    intro hnone
    unfold allocStack at h
    dsimp only at h
    split at h
    next => cases h
    next hsome => cases hnone.symm.trans hsome
  have htidy := (ha.requested (show (argc + 1) * 8 < 2 ^ 62 by omega)).1
  constructor
  · intro hnone
    have hkept : a.requested ((argc + 1) * 8) = a := by
      rw [Arena.requested, hnone]
      rfl
    rw [hkept] at hstack
    exact hstack (ha.sageMalloc_eq_none (by omega) hargc (by omega) hnone (by omega))
  · intro hnone
    exact hstack (htidy.sageMalloc_eq_none (by omega) henvc (by omega) hnone (by omega))

/-- At the jump to the program the stack pointer is aligned, the words from it on are the count,
the pointers to the arguments and to the environment, each list with a zero behind it, and the
copies of the strings lie one behind the other between these words and the end of the block. -/
theorem process_stack_layout (a : Arena) (ha : a.Tidy) (block : StackBlock) (mem : ℕ → UInt8)
    (argv envp : List CStr) (hfit : ArgumentsFit argv envp)
    (hstack : (allocStack a argv.length envp.length).1 = true) :
    (a.sageMalloc ((argv.length + 1) * 8) ≠ none ∧
      (a.requested ((argv.length + 1) * 8)).sageMalloc ((envp.length + 1) * 8) ≠ none) ∧
    let r := initialStack block.addr mem argv envp
    r.1 % 16 = 0 ∧ block.addr ≤ r.1 ∧ ∃ aps eps : List ℕ, aps.length = argv.length ∧
      Holds r.2 r.1 (words (argv.length :: (aps ++ 0 :: (eps ++ [0])))) ∧
      Copies r.2 (r.1 + 8 * (argv.length + envp.length + 3)) (block.addr + stackSize) (aps ++ eps)
        (argv ++ envp) := by
  refine ⟨pointerArrays_of_stack ha ?_ ?_ hstack, copies_initialStack block mem hfit⟩
  all_goals
    unfold ArgumentsFit at hfit
    omega

def twoArguments : List CStr := [⟨bytes "ls", by decide⟩, ⟨bytes "-l", by decide⟩]

def twoVariables : List CStr := [⟨bytes "A=1", by decide⟩, ⟨bytes "B=2", by decide⟩]

theorem process_stack_of_two_each :
    let r := initialStack 0x1000000 (fun _ => 0) twoArguments twoVariables
    r.1 = 0x100ffb0 ∧ ∃ aps eps : List ℕ, aps.length = 2 ∧
      Holds r.2 r.1 (words (2 :: (aps ++ 0 :: (eps ++ [0])))) ∧
      Copies r.2 (r.1 + 8 * 7) 0x1010000 (aps ++ eps) (twoArguments ++ twoVariables) :=
  ⟨by decide +kernel, (process_stack_layout Arena.empty Arena.tidy_empty ⟨0x1000000, rfl⟩
    (fun _ => 0) twoArguments twoVariables (by decide +kernel) (by decide +kernel)).2.2.2⟩

end Elf
end SageOS
