import SageOS.SgvmLink

/-!
# Running linked code

A run reads a code as the machine does and executes its instructions; it ends where the offset is
not the start of an instruction. Running the chunks goes to the next chunk at the end of a body, and
running the main code is one run over all of it. Every executed instruction is noted with the chunk
it comes from, its offset there, its constant or operands, and its destination as an offset in that
chunk. The linker moves the constants and not the destinations. It also moves numbers that the
machine does not use as constants, and misses a constant that the machine reads behind a DUP.
-/
namespace SageOS
open List

/-- The machine looks the first operand up in the constants. -/
def OpCode.readsConstant : OpCode → Bool
  | .constant | .getGlobal | .defineGlobal | .setGlobal | .defineFn | .importModule => true
  | _ => false

/-- The machine uses the first operand as a number although the compiler wrote an index. -/
def OpCode.usesNumber : OpCode → Bool
  | .callMethod | .getProperty | .setProperty => true
  | _ => false

/-- The operand is the next offset, with JUMP_IF_FALSE under a condition. -/
def OpCode.jumps : OpCode → Bool
  | .jump | .jumpIfFalse | .brk | .cont => true
  | _ => false

/-- An instruction with its constant in place of the index. -/
structure LinkAction where
  op : OpCode
  constant : Option (Option BytecodeConst)
  operands : Bytes
  deriving DecidableEq, Repr

namespace MetalInstr
variable (i : MetalInstr)

def resolve (pool : List BytecodeConst) : LinkAction :=
  if i.op.readsConstant then ⟨i.op, some pool[i.index]?, i.operands.drop 2⟩
  else ⟨i.op, none, if i.op.jumps then [] else i.operands⟩

def target : Option ℕ := if i.op.jumps then some i.index else none

/-- The offset that is executed next; `taken` is the outcome of a conditional jump. -/
def next (pc : ℕ) (taken : Bool) : ℕ :=
  if i.op.jumps ∧ (i.op ≠ .jumpIfFalse ∨ taken = true) then i.index
  else if i.op = .loopBack then pc + i.size - i.index
  else pc + i.size

end MetalInstr

/-- Anything that executes instructions: it stops or goes on, and settles conditional jumps. -/
structure ChunkMachine (σ : Type) where
  exec : σ → LinkAction → Option (σ × Bool)

structure Executed where
  chunk : ℕ
  pc : ℕ
  action : LinkAction
  afterDup : Bool
  dest : Option ℤ
  deriving DecidableEq

/-- The number of the chunk that runs, the chunks from it on, and the offset in it. -/
structure ChunkPlace where
  index : ℕ
  rest : List BytecodeChunk
  pc : ℕ

def settle (k : ℕ) : List BytecodeChunk → ℕ → ChunkPlace
  | [], pc => ⟨k, [], pc⟩
  | chunk :: rest, pc =>
    if pc = chunk.body.length then settle (k + 1) rest 0 else ⟨k, chunk :: rest, pc⟩

def ChunkPlace.fetch (place : ChunkPlace) : Option (MetalInstr × List BytecodeConst) :=
  match place.rest with
  | [] => none
  | chunk :: _ => (instrAt chunk.instrs place.pc).map fun i => (i, chunk.constants)

namespace ChunkMachine
variable {σ : Type} (M : ChunkMachine σ)

/-- The chunks are run one after another, for at most `n` instructions. -/
def chunkRun : ℕ → ChunkPlace → σ → List Executed
  | 0, _, _ => []
  | n + 1, place, s =>
    let place := settle place.index place.rest place.pc
    match place.fetch with
    | none => []
    | some (i, constants) =>
      ⟨place.index, place.pc, i.resolve constants, i.afterDup, i.target.map Nat.cast⟩ ::
        match M.exec s (i.resolve constants) with
        | none => []
        | some (s', taken) => chunkRun n { place with pc := i.next place.pc taken } s'

end ChunkMachine

/-- The chunk that an offset of the main code comes from, and the offset there. -/
def locate : List ℕ → ℕ → ℕ × ℕ
  | [], pc => (0, pc)
  | len :: lens, pc =>
    if pc < len then (0, pc) else ((locate lens (pc - len)).1 + 1, (locate lens (pc - len)).2)

namespace ChunkMachine
variable {σ : Type} (M : ChunkMachine σ)

/-- The main code is run; `lens` are the lengths of the bodies it was joined from. -/
def linkedRun (lens : List ℕ) (main : BytecodeChunk) : ℕ → ℕ → σ → List Executed
  | 0, _, _ => []
  | n + 1, pc, s =>
    match instrAt main.instrs pc with
    | none => []
    | some i =>
      let at' := locate lens pc
      ⟨at'.1, at'.2, i.resolve main.constants, i.afterDup,
        i.target.map fun t => (t : ℤ) - (pc - at'.2 : ℕ)⟩ ::
        match M.exec s (i.resolve main.constants) with
        | none => []
        | some (s', taken) => linkedRun lens main n (i.next pc taken) s'

end ChunkMachine

def bodyLengths (chunks : List BytecodeChunk) : List ℕ := chunks.map fun chunk => chunk.body.length

def codeBefore (chunks : List BytecodeChunk) (k : ℕ) : ℕ := (bodyLengths (chunks.take k)).sum

def constantsBefore (chunks : List BytecodeChunk) (k : ℕ) : ℕ :=
  ((chunks.take k).flatMap BytecodeChunk.constants).length

/-- An instruction that uses a moved operand as a number is only executed where no constants come
before the chunk, a jump only where no code comes before it, and the constant that is read behind a
DUP is the same one in the joined constants. -/
def Executed.InPlace (chunks : List BytecodeChunk) (e : Executed) : Prop :=
  (e.action.op.usesNumber = true → constantsBefore chunks e.chunk = 0) ∧
    (e.afterDup = true → ∀ c ∈ e.action.constant,
      c = (chunks.flatMap BytecodeChunk.constants)[dupIndex]?) ∧
    (e.dest.isSome → codeBefore chunks e.chunk = 0)

section Fetch

theorem instrAt_map_move (base : ℕ) {is : List MetalInstr} {afterDup : Bool}
    (h : Readable afterDup is) (pc : ℕ) :
    instrAt (is.map (MetalInstr.move base)) pc = (instrAt is pc).map (MetalInstr.move base) := by
  induction is generalizing afterDup pc with
  | nil => rfl
  | cons i is ih =>
    rw [map_cons, instrAt, instrAt, MetalInstr.size_move base h.2.1, ih h.2.2.2]
    split_ifs <;> rfl

theorem length_codeOf_map_move (base : ℕ) {is : List MetalInstr} {afterDup : Bool}
    (h : Readable afterDup is) :
    (codeOf (is.map (MetalInstr.move base))).length = (codeOf is).length := by
  induction is generalizing afterDup with
  | nil => rfl
  | cons i is ih =>
    have hsize : (i.move base).encode.length = i.encode.length := MetalInstr.size_move base h.2.1
    rw [map_cons, codeOf_cons, codeOf_cons, length_append, length_append, hsize, ih h.2.2.2]

theorem instrAt_some {is : List MetalInstr} {pc : ℕ} {i : MetalInstr} (h : instrAt is pc = some i) :
    i ∈ is ∧ pc + i.size ≤ (codeOf is).length := by
  induction is generalizing pc with
  | nil => cases h
  | cons j is ih =>
    unfold instrAt at h
    have hlen : (codeOf (j :: is)).length = j.size + (codeOf is).length := by
      rw [codeOf_cons, length_append]
      rfl
    split_ifs at h with hzero hlt
    · cases h
      exact ⟨mem_cons_self, by omega⟩
    · have := ih h
      exact ⟨mem_cons_of_mem j this.1, by omega⟩

theorem instrAt_end (is : List MetalInstr) : instrAt is (codeOf is).length = none := by
  cases h : instrAt is (codeOf is).length with
  | none => rfl
  | some i =>
    have hsize := i.size_pos
    have hle := (instrAt_some h).2
    omega

theorem linkedInstrs_append (base : ℕ) (pre post : List BytecodeChunk) :
    linkedInstrs base (pre ++ post) = linkedInstrs base pre ++
      linkedInstrs (base + (pre.flatMap BytecodeChunk.constants).length) post := by
  induction pre generalizing base with
  | nil => rfl
  | cons chunk pre ih => simp [linkedInstrs, ih, Nat.add_assoc]

theorem length_linkedInstrs {chunks : List BytecodeChunk}
    (h : ∀ chunk ∈ chunks, ∃ is, chunk.Written is) (base : ℕ) :
    (codeOf (linkedInstrs base chunks)).length = (bodyLengths chunks).sum := by
  induction chunks generalizing base with
  | nil => rfl
  | cons chunk rest ih =>
    obtain ⟨⟨is, hchunk⟩, hrest⟩ := forall_mem_cons.mp h
    unfold linkedInstrs
    rw [codeOf_append, length_append, ih hrest, hchunk.instrs,
      length_codeOf_map_move _ hchunk.readable, codeOf_readings, ← hchunk.body]
    rfl

theorem locate_append (lens : List ℕ) {len pc : ℕ} (hpc : pc < len) (later : List ℕ) :
    locate (lens ++ len :: later) (lens.sum + pc) = (lens.length, pc) := by
  induction lens with
  | nil =>
    rw [nil_append, locate, sum_nil, zero_add, if_pos hpc]
    rfl
  | cons l lens ih =>
    have hsub : l + lens.sum + pc - l = lens.sum + pc := by omega
    rw [cons_append, locate, sum_cons, if_neg (by omega), hsub, ih]
    rfl

end Fetch

section Moved
variable {pool base : ℕ} {j : Instr} {i : MetalInstr}

theorem jumps_of_layout {op : OpCode} {layout : OpLayout} (h : op.layout = some layout) :
    op ≠ .loopBack ∧ (op.jumps = true ↔ layout = .jump) := by
  cases op <;> cases h <;> decide

/-- The machine jumps only where the compiler wrote a jump, and to the offset written there. -/
theorem Instr.Fits.reading_spec (h : j.Fits pool) (hi : i ∈ j.reading) :
    i.op ≠ .loopBack ∧ i.operands.length = i.op.operandBytes ∧ i.target = j.target ∧
      (i.op.jumps = true → i.op.layout ≠ some .index) := by
  by_cases hdup : j.layout = .dup
  · cases j with
    | dup behind =>
      rcases mem_cons.mp hi with rfl | hi
      · exact ⟨nofun, rfl, rfl, nofun⟩
      · rcases mem_singleton.mp hi with rfl
        rcases h with rfl | rfl
        · exact ⟨nofun, rfl, rfl, nofun⟩
        · exact ⟨nofun, rfl, rfl, nofun⟩
    | _ => cases hdup
  · rw [j.reading_of_layout_ne hdup] at hi
    rcases mem_singleton.mp hi with rfl
    have hjumps := jumps_of_layout h.layout
    refine ⟨hjumps.1, h.length_operands hdup, ?_, fun hjump => ?_⟩
    · unfold MetalInstr.target
      cases j with
      | jump op t =>
        rw [if_pos (hjumps.2.mpr rfl)]
        exact congrArg some (ofU16_u16 h.2)
      | dup behind => exact absurd rfl hdup
      | _ => exact if_neg fun hjump => by cases hjumps.2.mp hjump
    · dsimp only
      rw [h.layout, hjumps.2.mp hjump]
      nofun

theorem Instr.Fits.target_next_move (h : j.Fits pool) (hi : i ∈ j.reading) (base : ℕ) :
    (i.move base).target = i.target ∧ (i.move base).next = i.next := by
  obtain ⟨hloop, hlen, -, hjump⟩ := h.reading_spec hi
  by_cases hjumps : i.op.jumps = true
  · rw [MetalInstr.move_of_layout_ne base (hjump hjumps)]
    exact ⟨rfl, rfl⟩
  · have hop : (i.move base).op = i.op := rfl
    unfold MetalInstr.target MetalInstr.next
    simp [hop, hjumps, hloop, MetalInstr.size_move base hlen]

theorem u16_append_inj {a b : ℕ} (ha : a < 65536) (hb : b < 65536) (rest : Bytes) :
    u16 a ++ rest = u16 b ++ rest ↔ a = b := by
  refine ⟨fun h => ?_, fun h => h ▸ rfl⟩
  have hbytes := append_cancel_right h
  simp only [u16, cons.injEq, and_true] at hbytes
  rw [← ofU16_u16 ha, ← ofU16_u16 hb, hbytes.1, hbytes.2]

theorem op_resolve (i : MetalInstr) (pool : List BytecodeConst) : (i.resolve pool).op = i.op := by
  unfold MetalInstr.resolve
  split_ifs <;> rfl

section Pools
variable {pool before after : List BytecodeConst}

/-- A moved operand names the same constant, and is another number unless nothing comes before. -/
theorem resolve_move_indexed {op : OpCode} {n : ℕ} {rest : Bytes}
    (hop : op.layout = some .index) (hn : n < pool.length)
    (hlen : (before ++ (pool ++ after)).length < 65536) :
    ((⟨op, u16 n ++ rest, false⟩ : MetalInstr).move before.length).resolve
        (before ++ (pool ++ after)) = (⟨op, u16 n ++ rest, false⟩ : MetalInstr).resolve pool ↔
      (op.usesNumber = true → before.length = 0) := by
  have hkinds : op.jumps = false ∧ op.readsConstant = !op.usesNumber := by
    revert hop
    cases op <;> decide
  rw [length_append, length_append] at hlen
  have hindex : ∀ k < 65536, ∀ rest, (⟨op, u16 k ++ rest, false⟩ : MetalInstr).index = k :=
    fun k hk _ => ofU16_u16 hk
  have hmove : (⟨op, u16 n ++ rest, false⟩ : MetalInstr).move before.length =
      ⟨op, u16 (n + before.length) ++ rest, false⟩ := by
    unfold MetalInstr.move
    rw [if_pos ⟨rfl, hop⟩, hindex n (by omega)]
    rfl
  rw [hmove]
  unfold MetalInstr.resolve
  rw [hindex n (by omega), hindex (n + before.length) (by omega), hkinds.1, hkinds.2]
  by_cases hnumber : op.usesNumber = true
  · rw [hnumber]
    simp only [Bool.not_true, Bool.false_eq_true, if_false, LinkAction.mk.injEq, true_and]
    rw [u16_append_inj (by omega) (by omega)]
    simp
  · have hget : (before ++ (pool ++ after))[n + before.length]? = pool[n]? := by
      rw [getElem?_append_right (Nat.le_add_left _ _), Nat.add_sub_cancel,
        getElem?_append_left hn]
    rw [hget]
    exact iff_of_true (by simp [hnumber, u16]) fun h => absurd h hnumber

/-- An instruction does the same with the joined constants unless it uses a moved operand as a
number or its constant was not moved. -/
theorem resolve_move_iff (h : j.Fits pool.length) (hi : i ∈ j.reading)
    (hlen : (before ++ (pool ++ after)).length < 65536) :
    (i.move before.length).resolve (before ++ (pool ++ after)) = i.resolve pool ↔
      (i.op.usesNumber = true → before.length = 0) ∧
        (i.afterDup = true → ∀ c ∈ (i.resolve pool).constant,
          c = (before ++ (pool ++ after))[dupIndex]?) := by
  have hlayout := h.layout
  by_cases hother : j.layout = .plain ∨ j.layout = .jump
  · have hkinds : (j.op.readsConstant = false ∧ j.op.usesNumber = false) ∧
        j.op.layout ≠ some .index ∧ j.layout ≠ .dup := by
      revert hlayout hother
      generalize j.layout = layout
      cases j.op <;> rintro ⟨⟩ <;> decide
    rw [j.reading_of_layout_ne hkinds.2.2] at hi
    rcases mem_singleton.mp hi with rfl
    rw [MetalInstr.move_of_layout_ne _ hkinds.2.1]
    unfold MetalInstr.resolve
    simp [hkinds]
  cases j with
  | index op n rest =>
    rcases mem_singleton.mp hi with rfl
    exact (resolve_move_indexed h.1 h.2.2.1 hlen).trans (and_iff_left nofun).symm
  | dup behind =>
    rcases mem_cons.mp hi with rfl | hi
    · exact iff_of_true rfl ⟨nofun, nofun⟩
    · rcases mem_singleton.mp hi with rfl
      rcases h with rfl | rfl
      · have hresolve : ∀ p : List BytecodeConst,
            dupConstant.resolve p = ⟨.constant, some p[dupIndex]?, []⟩ := fun _ => rfl
        change dupConstant.resolve _ = _ ↔ _
        rw [hresolve, hresolve]
        refine ⟨fun heq => ⟨nofun, ?_⟩, fun hsame => ?_⟩
        · rintro - c ⟨⟩
          exact (Option.some.inj (LinkAction.mk.inj heq).2.1).symm
        · rw [hsame.2 rfl _ rfl]
      · exact iff_of_true rfl ⟨nofun, fun _ => nofun⟩
  | plain op operands => exact absurd (.inl rfl) hother
  | jump op t => exact absurd (.inr rfl) hother

end Pools
end Moved

/-- The place in the chunks that an offset of the main code stands for, behind the chunks `pre`. -/
structure Follows (chunks pre : List BytecodeChunk) (place : ChunkPlace) (pc : ℕ) : Prop where
  split : pre ++ place.rest = chunks
  index : place.index = pre.length
  offset : pc = (bodyLengths pre).sum + place.pc
  inside : place.pc ≤ (place.rest.head?.map fun chunk => chunk.body.length).getD 0

theorem Follows.settle {chunks pre rest : List BytecodeChunk} {k offset pc : ℕ}
    (h : Follows chunks pre ⟨k, rest, offset⟩ pc) :
    ∃ pre', Follows chunks pre' (SageOS.settle k rest offset) pc ∧
      ∀ chunk ∈ (SageOS.settle k rest offset).rest.head?,
        (SageOS.settle k rest offset).pc < chunk.body.length := by
  induction rest generalizing pre k offset with
  | nil => exact ⟨pre, h, nofun⟩
  | cons chunk rest ih =>
    have hindex : k = pre.length := h.index
    have hoffset : pc = (bodyLengths pre).sum + offset := h.offset
    unfold SageOS.settle
    by_cases hend : offset = chunk.body.length
    · rw [if_pos hend]
      have hnext : Follows chunks (pre ++ [chunk]) ⟨k + 1, rest, 0⟩ pc := by
        refine ⟨?_, ?_, ?_, Nat.zero_le _⟩
        · rw [append_assoc]
          exact h.split
        · rw [length_append]
          exact congrArg (· + 1) hindex
        · simp [bodyLengths, hoffset, hend]
      exact ih hnext
    · rw [if_neg hend]
      refine ⟨pre, h, ?_⟩
      rintro c ⟨⟩
      exact lt_of_le_of_ne h.inside hend

section Runs
variable {script : LinkScript} {chunks pre rest : List BytecodeChunk} {main chunk : BytecodeChunk}
  {k offset pc : ℕ} (hwritten : ∀ chunk ∈ chunks, ∃ is, chunk.Written is)
  (hlink : link script chunks = some main)

include hwritten hlink

theorem Follows.fetch_nil (h : Follows chunks pre ⟨k, [], offset⟩ pc) :
    instrAt main.instrs pc = none := by
  have hall : pre = chunks := (append_nil pre).symm.trans h.split
  have hinside : offset = 0 := Nat.le_zero.mp h.inside
  have hpc : pc = (codeOf (linkedInstrs 0 chunks)).length := by
    rw [length_linkedInstrs hwritten, h.offset, hall, hinside, Nat.add_zero]
  rw [(link_spec hwritten hlink).1, hpc, instrAt_end]

/-- Inside a chunk the main code holds the same instruction with its constants moved. -/
theorem Follows.fetch_cons (h : Follows chunks pre ⟨k, chunk :: rest, offset⟩ pc)
    (hoffset : offset < chunk.body.length) :
    instrAt main.instrs pc = (instrAt chunk.instrs offset).map
      (MetalInstr.move (pre.flatMap BytecodeChunk.constants).length) := by
  have hsplit : pre ++ chunk :: rest = chunks := h.split
  have hpc : pc = (bodyLengths pre).sum + offset := h.offset
  obtain ⟨is, hchunk⟩ := hwritten chunk (hsplit ▸ mem_append_right pre mem_cons_self)
  have hpre : ∀ c ∈ pre, ∃ is, c.Written is :=
    fun c hc => hwritten c (hsplit ▸ mem_append_left _ hc)
  have hlt : offset < (codeOf ((readings is).map (MetalInstr.move
      (pre.flatMap BytecodeChunk.constants).length))).length := by
    rw [length_codeOf_map_move _ hchunk.readable, codeOf_readings, ← hchunk.body]
    exact hoffset
  rw [(link_spec hwritten hlink).1, ← hsplit, linkedInstrs_append, hpc,
    ← length_linkedInstrs hpre 0, instrAt_append, zero_add, linkedInstrs, hchunk.instrs,
    instrAt_of_lt _ hlt, instrAt_map_move _ hchunk.readable]

theorem Follows.resolve_iff (h : Follows chunks pre ⟨k, chunk :: rest, offset⟩ pc)
    {i : MetalInstr} (hi : instrAt chunk.instrs offset = some i) :
    (i.move (pre.flatMap BytecodeChunk.constants).length).resolve main.constants =
        i.resolve chunk.constants ↔
      (i.op.usesNumber = true → (pre.flatMap BytecodeChunk.constants).length = 0) ∧
        (i.afterDup = true → ∀ c ∈ (i.resolve chunk.constants).constant,
          c = (chunks.flatMap BytecodeChunk.constants)[dupIndex]?) := by
  have hsplit : pre ++ chunk :: rest = chunks := h.split
  obtain ⟨is, hchunk⟩ := hwritten chunk (hsplit ▸ mem_append_right pre mem_cons_self)
  obtain ⟨-, hconstants, hlen⟩ := link_spec hwritten hlink
  rw [hconstants] at hlen ⊢
  rw [← hsplit, flatMap_append, flatMap_cons] at hlen ⊢
  rw [hchunk.instrs] at hi
  obtain ⟨j, hj, hi⟩ := mem_flatMap.mp (instrAt_some hi).1
  exact resolve_move_iff (hchunk.fits j hj) hi hlen

omit hlink in
/-- The next offsets stand for each other, unless a jump is made behind other code. -/
theorem Follows.next (h : Follows chunks pre ⟨k, chunk :: rest, offset⟩ pc) {i : MetalInstr}
    (hi : instrAt chunk.instrs offset = some i) :
    (∀ base, (i.move base).target = i.target ∧ (i.move base).next = i.next) ∧
      ∀ taken, (i.target.isSome → (bodyLengths pre).sum = 0) →
        Follows chunks pre ⟨k, chunk :: rest, i.next offset taken⟩ (i.next pc taken) := by
  have hsplit : pre ++ chunk :: rest = chunks := h.split
  have hpc : pc = (bodyLengths pre).sum + offset := h.offset
  obtain ⟨is, hchunk⟩ := hwritten chunk (hsplit ▸ mem_append_right pre mem_cons_self)
  rw [hchunk.instrs] at hi
  obtain ⟨hmem, hsize⟩ := instrAt_some hi
  rw [codeOf_readings, ← hchunk.body] at hsize
  obtain ⟨j, hj, hij⟩ := mem_flatMap.mp hmem
  obtain ⟨hloop, -, htarget, -⟩ := (hchunk.fits j hj).reading_spec hij
  refine ⟨(hchunk.fits j hj).target_next_move hij, fun taken hjump => ?_⟩
  unfold MetalInstr.next
  by_cases hgo : i.op.jumps = true ∧ (i.op ≠ .jumpIfFalse ∨ taken = true)
  · have hsome : i.target = some i.index := if_pos hgo.1
    have hle : i.index ≤ chunk.body.length := by
      rw [hchunk.body]
      exact hchunk.targets j hj _ (htarget ▸ hsome)
    rw [if_pos hgo, if_pos hgo]
    exact ⟨hsplit, h.index, by rw [hjump (hsome ▸ rfl), Nat.zero_add], hle⟩
  · rw [if_neg hgo, if_neg hgo, if_neg hloop, if_neg hloop]
    exact ⟨hsplit, h.index, by rw [hpc, Nat.add_assoc], hsize⟩

omit hwritten hlink in
theorem Follows.locate (h : Follows chunks pre ⟨k, chunk :: rest, offset⟩ pc)
    (hoffset : offset < chunk.body.length) :
    SageOS.locate (bodyLengths chunks) pc = (k, offset) := by
  have hsplit : pre ++ chunk :: rest = chunks := h.split
  have hindex : k = (bodyLengths pre).length := by
    rw [bodyLengths, length_map]
    exact h.index
  have hlens : bodyLengths chunks = bodyLengths pre ++ chunk.body.length :: bodyLengths rest := by
    rw [← hsplit]
    exact map_append
  rw [hlens, h.offset, locate_append _ hoffset, hindex]

omit hwritten hlink in
theorem target_sub_eq_iff (target : Option ℕ) (d : ℕ) :
    (target.map fun t => (t : ℤ) - d) = target.map Nat.cast ↔ (target.isSome → d = 0) := by
  cases target with
  | none => simp
  | some t => simp

/-- From places that stand for each other, the runs agree exactly when all they execute is in
place. -/
theorem Follows.run {σ : Type} (M : ChunkMachine σ) (n : ℕ) {place : ChunkPlace}
    (h : Follows chunks pre place pc) (s : σ) :
    M.linkedRun (bodyLengths chunks) main n pc s = M.chunkRun n place s ↔
      ∀ e ∈ M.chunkRun n place s, e.InPlace chunks := by
  induction n generalizing pre place pc s with
  | zero => exact iff_of_true rfl (forall_mem_nil _)
  | succ n ih =>
    obtain ⟨pre, h, hsettled⟩ := h.settle
    unfold ChunkMachine.chunkRun
    generalize SageOS.settle place.index place.rest place.pc = place at h hsettled
    obtain ⟨k, rest, offset⟩ := place
    cases rest with
    | nil =>
      rw [ChunkMachine.linkedRun, h.fetch_nil hwritten hlink]
      exact iff_of_true rfl (forall_mem_nil _)
    | cons chunk rest =>
      have hoffset : offset < chunk.body.length := hsettled chunk rfl
      have hmain := h.fetch_cons hwritten hlink hoffset
      cases hi : instrAt chunk.instrs offset with
      | none =>
        simp [ChunkMachine.linkedRun, hmain, ChunkPlace.fetch, hi]
      | some i =>
        have hresolve := h.resolve_iff hwritten hlink hi
        obtain ⟨hmoved, hnext⟩ := h.next hwritten hi
        have hafter : ∀ base, (i.move base).afterDup = i.afterDup := fun _ => rfl
        have hbefore : pc - offset = (bodyLengths pre).sum := by
          rw [h.offset, Nat.add_sub_cancel]
        have hindex : k = pre.length := h.index
        have hcode : codeBefore chunks k = (bodyLengths pre).sum := by
          unfold codeBefore
          rw [← h.split, hindex, take_left]
        have hconsts : constantsBefore chunks k =
            (pre.flatMap BytecodeChunk.constants).length := by
          unfold constantsBefore
          rw [← h.split, hindex, take_left]
        simp only [ChunkMachine.linkedRun, hmain, Option.map_some, ChunkPlace.fetch, hi,
          h.locate hoffset, hmoved, hbefore, List.cons.injEq, Executed.mk.injEq, true_and,
          hafter, hresolve, target_sub_eq_iff, forall_mem_cons,
          Executed.InPlace, Option.isSome_map, hcode, hconsts, op_resolve, and_assoc]
        refine and_congr_right fun hnumber => and_congr_right fun hdup =>
          and_congr_right fun hjump => ?_
        rw [hresolve.mpr ⟨hnumber, hdup⟩]
        cases M.exec s (i.resolve chunk.constants) with
        | none => exact iff_of_true rfl (forall_mem_nil _)
        | some next => exact ih (hnext next.2 hjump) next.1

end Runs

/-- The chunks of a program from their beginning. -/
def ChunkMachine.runChunks {σ : Type} (M : ChunkMachine σ) (chunks : List BytecodeChunk) (n : ℕ)
    (s : σ) : List Executed := M.chunkRun n ⟨0, chunks, 0⟩ s

def ChunkMachine.runMain {σ : Type} (M : ChunkMachine σ) (chunks : List BytecodeChunk)
    (main : BytecodeChunk) (n : ℕ) (s : σ) : List Executed :=
  M.linkedRun (bodyLengths chunks) main n 0 s

def straightOn : ChunkMachine Unit := ⟨fun s _ => some (s, false)⟩

/-- `print 0` and then `if true: print 1`. -/
def branchProgram : List SageStmt :=
  [.print (.number zeroBits),
    .ifElse (.bool true) (.block [.print (.number oneBits)]) none]

def printChunk : BytecodeChunk := ⟨[0, 0, 0, 41, 1, 43], [.number zeroBits]⟩

def branchChunk : BytecodeChunk :=
  ⟨[2, 35, 0, 12, 4, 0, 0, 0, 41, 34, 0, 13, 4, 1, 43], [.number oneBits]⟩

/-- The constant of the second chunk has moved, and its jumps still go to 12 and 13. -/
def branchMain : BytecodeChunk :=
  ⟨[0, 0, 0, 41, 1, 2, 35, 0, 12, 4, 0, 0, 1, 41, 34, 0, 13, 4, 1, 43],
    [.number zeroBits, .number oneBits]⟩

theorem compile_branchProgram :
    compileProgram branchProgram = some ([printChunk, branchChunk], []) := by
  decide

theorem link_branch (script : LinkScript) :
    link script [printChunk, branchChunk] = some branchMain := by
  cases script <;> decide

end SageOS
