import SageOS.CompiledChunks

/-!
# The SGVM linker

The chunks of a program are joined into one main code. The pools of constants are appended, a
trailing return is cut off each chunk, and the code is walked instruction by instruction to move
the constant operands behind the constants of the chunks before. There are two scripts with the
same walk and different tables of opcodes.
-/
namespace SageOS
open List

/-- The opcodes as a linker script lists them. -/
structure LinkTable where
  constOps : List ℕ
  defineFn : ℕ := 8
  callMethod : ℕ := 37
  defClass : ℕ
  readsParent : Bool
  skipTwo : List ℕ
  skipOne : List ℕ

inductive LinkScript
  | compileToSgvm
  | compileVfsBridge
  deriving DecidableEq, Repr

def LinkScript.table : LinkScript → LinkTable
  | .compileToSgvm =>
    { constOps := [0, 5, 6, 7, 9, 10, 42, 53]
      defClass := 52
      readsParent := true
      skipTwo := [34, 35, 38, 39, 40, 55]
      skipOne := [36, 46, 48, 49, 50] }
  | .compileVfsBridge =>
    { constOps := [0, 5, 6, 7, 9, 10, 42, 61, 63]
      defClass := 62
      readsParent := false
      skipTwo := [34, 35, 38, 39, 40, 60, 65]
      skipOne := [36, 46, 48, 49, 50, 56] }

/-- A constant operand behind `base` other constants. -/
def moveIndex (base : ℕ) (hi lo : UInt8) : Bytes := u16 (ofU16 hi lo + base)

def relocateFrom (table : LinkTable) (base : ℕ) : ℕ → Bytes → Bytes
  | 0, code => code
  | _ + 1, [] => []
  | n + 1, op :: rest =>
    if op.toNat ∈ table.constOps then
      match rest with
      | hi :: lo :: rest => op :: (moveIndex base hi lo ++ relocateFrom table base n rest)
      | _ => op :: rest
    else if op.toNat = table.defineFn then
      match rest with
      | hi :: lo :: fhi :: flo :: rest =>
        op :: (moveIndex base hi lo ++ fhi :: flo :: relocateFrom table base n rest)
      | _ => op :: rest
    else if op.toNat = table.callMethod then
      match rest with
      | hi :: lo :: argc :: rest =>
        op :: (moveIndex base hi lo ++ argc :: relocateFrom table base n rest)
      | _ => op :: rest
    else if op.toNat = table.defClass then
      match rest with
      | hi :: lo :: mhi :: mlo :: parent :: rest =>
        op :: (moveIndex base hi lo ++ mhi :: mlo :: parent ::
          if table.readsParent ∧ parent ≠ 0 then
            match rest with
            | phi :: plo :: rest => moveIndex base phi plo ++ relocateFrom table base n rest
            | _ => rest
          else relocateFrom table base n rest)
      | _ => op :: rest
    else if op.toNat ∈ table.skipTwo then
      op :: (rest.take 2 ++ relocateFrom table base n (rest.drop 2))
    else if op.toNat ∈ table.skipOne then
      op :: (rest.take 1 ++ relocateFrom table base n (rest.drop 1))
    else op :: relocateFrom table base n rest

def relocate (table : LinkTable) (base : ℕ) (code : Bytes) : Bytes :=
  relocateFrom table base code.length code

/-- The code without a trailing return. -/
def BytecodeChunk.body (chunk : BytecodeChunk) : Bytes :=
  if chunk.code.getLast? = some OpCode.ret.byte then chunk.code.dropLast else chunk.code

def linkInto (table : LinkTable) (main : BytecodeChunk) (chunk : BytecodeChunk) : BytecodeChunk :=
  { code := main.code ++ relocate table main.constants.length chunk.body
    constants := main.constants ++ chunk.constants }

def BytecodeConst.Packs : BytecodeConst → Prop
  | .number _ => True
  | .string value => value.length < 65536

instance : DecidablePred BytecodeConst.Packs := fun c =>
  match c with
  | .number _ => inferInstanceAs (Decidable True)
  | .string value => inferInstanceAs (Decidable (value.length < 65536))

def link (script : LinkScript) (chunks : List BytecodeChunk) : Option BytecodeChunk :=
  let main := chunks.foldl (linkInto script.table) {}
  if main.constants.length < 65536 ∧ ∀ c ∈ main.constants, c.Packs then
    some { main with code := main.code ++ [OpCode.ret.byte] }
  else none

/-- The linker moves the constants of the instructions that it walks over. The opcode behind a DUP
it takes for an operand. -/
def MetalInstr.move (base : ℕ) (i : MetalInstr) : MetalInstr :=
  { i with
    operands := if i.afterDup = false ∧ i.op.layout = some .index then
      u16 (i.index + base) ++ i.operands.drop 2 else i.operands }

namespace MetalInstr
variable (base : ℕ)

theorem move_of_layout_ne {i : MetalInstr} (h : i.op.layout ≠ some .index) : i.move base = i := by
  unfold move
  rw [if_neg fun hmove => h hmove.2]

theorem length_operands_move {i : MetalInstr} (h : i.operands.length = i.op.operandBytes) :
    (i.move base).operands.length = i.operands.length := by
  unfold move
  dsimp only
  split_ifs with hmove
  · have hbytes : ∀ op : OpCode, op.layout = some .index → 2 ≤ op.operandBytes := by
      intro op
      cases op <;> decide
    have hle := hbytes _ hmove.2
    rw [length_append, length_drop, show (u16 (i.index + base)).length = 2 from rfl]
    omega
  · rfl

theorem size_move {i : MetalInstr} (h : i.operands.length = i.op.operandBytes) :
    (i.move base).size = i.size := congrArg (· + 1) (length_operands_move base h)

end MetalInstr

theorem Readable.map_move {afterDup : Bool} {is rest : List MetalInstr} (base : ℕ)
    (h : Readable afterDup (is ++ rest)) :
    Readable afterDup (is.map (MetalInstr.move base) ++ rest) := by
  induction is generalizing afterDup with
  | nil => exact h
  | cons i is ih =>
    obtain ⟨hop, hlen, hdup, his⟩ := h
    exact ⟨hop, (MetalInstr.length_operands_move base hlen).trans hlen, hdup, ih his⟩

section Walk
variable {op : OpCode} {operands : Bytes} {pool : ℕ} (script : LinkScript) (base n : ℕ)
  (rest : Bytes)

/-- The operands that the linker passes over behind an opcode without a constant. -/
def LinkTable.skipped (table : LinkTable) (b : ℕ) : ℕ :=
  if b ∈ table.skipTwo then 2 else if b ∈ table.skipOne then 1 else 0

theorem relocateFrom_of_leaves {table : LinkTable} {b : UInt8}
    (h : (b.toNat ∉ table.constOps ∧ b.toNat ≠ table.defineFn) ∧ b.toNat ≠ table.callMethod ∧
      b.toNat ≠ table.defClass) (hlen : operands.length = table.skipped b.toNat) :
    relocateFrom table base (n + 1) (b :: (operands ++ rest)) =
      b :: (operands ++ relocateFrom table base n rest) := by
  rw [relocateFrom.eq_def]
  dsimp only
  rw [if_neg h.1.1, if_neg h.1.2, if_neg h.2.1, if_neg h.2.2]
  unfold LinkTable.skipped at hlen
  split_ifs at hlen ⊢
  · rw [← hlen, take_left, drop_left]
  · rw [← hlen, take_left, drop_left]
  · rw [length_eq_zero_iff.mp hlen]
    rfl

theorem relocateFrom_other {layout : OpLayout} (h : op.layout = some layout)
    (hlayout : layout = .plain ∨ layout = .jump) (hlen : operands.length = op.operandBytes) :
    relocateFrom script.table base (n + 1) (op.byte :: (operands ++ rest)) =
      op.byte :: (operands ++ relocateFrom script.table base n rest) := by
  have hleaves : ((op.byte.toNat ∉ script.table.constOps ∧
      op.byte.toNat ≠ script.table.defineFn) ∧ op.byte.toNat ≠ script.table.callMethod ∧
      op.byte.toNat ≠ script.table.defClass) ∧
      op.operandBytes = script.table.skipped op.byte.toNat := by
    revert hlayout
    cases op <;> cases h <;> cases script <;> decide
  exact relocateFrom_of_leaves base n rest hleaves.1 (hlen.trans hleaves.2)

/-- A DUP passes over one byte, so the opcode behind it is not looked at. -/
theorem relocateFrom_dup (b : UInt8) :
    relocateFrom script.table base (n + 1) (OpCode.dup.byte :: b :: rest) =
      OpCode.dup.byte :: b :: relocateFrom script.table base n rest := by
  change relocateFrom _ _ _ (_ :: ([b] ++ rest)) = _
  apply relocateFrom_of_leaves
  · cases script <;> decide
  · cases script <;> rfl

theorem relocateFrom_index (h : op.layout = some .index) (k : ℕ)
    (hlen : operands.length + 2 = op.operandBytes) :
    relocateFrom script.table base (n + 1) (op.byte :: (u16 k ++ operands ++ rest)) =
      op.byte :: (u16 ((⟨op, u16 k ++ operands, false⟩ : MetalInstr).index + base) ++
        (operands ++ relocateFrom script.table base n rest)) := by
  have hkinds : (op.byte.toNat ∈ script.table.constOps ∧ op.operandBytes = 2) ∨
      (op.byte.toNat ∉ script.table.constOps ∧ op.byte.toNat = script.table.defineFn ∧
        op.operandBytes = 4) ∨
      (op.byte.toNat ∉ script.table.constOps ∧ op.byte.toNat ≠ script.table.defineFn ∧
        op.byte.toNat = script.table.callMethod ∧ op.operandBytes = 3) := by
    cases op <;> cases h <;> cases script <;> decide
  rw [relocateFrom.eq_def]
  rcases hkinds with ⟨hop, hbytes⟩ | ⟨hnot, hop, hbytes⟩ | ⟨hnot, hne, hop, hbytes⟩
  · obtain rfl : operands = [] := length_eq_zero_iff.mp (by omega)
    exact if_pos hop
  · obtain ⟨a, b, rfl⟩ := length_eq_two.mp (show operands.length = 2 by omega)
    exact (if_neg hnot).trans (if_pos hop)
  · obtain ⟨a, rfl⟩ := length_eq_one_iff.mp (show operands.length = 1 by omega)
    exact (if_neg hnot).trans ((if_neg hne).trans (if_pos hop))

theorem codeOf_move : codeOf ([(⟨op, operands, false⟩ : MetalInstr)].map (MetalInstr.move base)) =
    op.byte :: if op.layout = some .index then
      u16 ((⟨op, operands, false⟩ : MetalInstr).index + base) ++ operands.drop 2
    else operands := by
  simp only [map_singleton, MetalInstr.move, codeOf, flatMap_singleton, MetalInstr.encode, true_and]

theorem relocateFrom_encode {i : Instr} (h : i.Fits pool) {n : ℕ} {rest : Bytes}
    (hn : (i.encode ++ rest).length ≤ n) : ∃ m, rest.length ≤ m ∧
      relocateFrom script.table base n (i.encode ++ rest) =
        codeOf (i.reading.map (MetalInstr.move base)) ++ relocateFrom script.table base m rest := by
  have hsize : i.encode.length = i.operands.length + 1 := rfl
  rw [length_append, hsize] at hn
  obtain ⟨n, rfl⟩ : ∃ m, n = m + 1 := ⟨n - 1, by omega⟩
  have hle : rest.length ≤ n := by omega
  cases i with
  | plain op operands =>
    refine ⟨n, hle, ?_⟩
    change _ = codeOf ([(⟨op, operands, false⟩ : MetalInstr)].map _) ++ _
    rw [codeOf_move, h.1]
    exact relocateFrom_other script base n rest h.1 (.inl rfl) h.2
  | index op k operands =>
    refine ⟨n, hle, ?_⟩
    change _ = codeOf ([(⟨op, u16 k ++ operands, false⟩ : MetalInstr)].map _) ++ _
    rw [codeOf_move, if_pos h.1]
    exact (relocateFrom_index script base n rest h.1 k h.2.1).trans
      (congrArg (op.byte :: ·) (append_assoc _ _ _).symm)
  | jump op t =>
    refine ⟨n, hle, ?_⟩
    change _ = codeOf ([(⟨op, u16 t, false⟩ : MetalInstr)].map _) ++ _
    rw [codeOf_move, h.1]
    exact relocateFrom_other script base n rest h.1 (.inr rfl) (h.length_operands nofun)
  | dup behind =>
    rcases h with rfl | rfl
    · -- The two bytes behind CONSTANT are a DUP for the linker.
      obtain ⟨n, rfl⟩ : ∃ m, n = m + 1 := ⟨n - 1, by change 4 + _ ≤ _ at hn; omega⟩
      refine ⟨n, by change 4 + _ ≤ _ at hn; omega, ?_⟩
      change relocateFrom _ _ _ (OpCode.dup.byte :: _ :: OpCode.dup.byte :: _ :: rest) = _
      rw [relocateFrom_dup, relocateFrom_dup]
      rfl
    · exact ⟨n, hle, relocateFrom_dup script base n rest _⟩

theorem relocateFrom_encodeAll {is : List Instr} (h : ∀ i ∈ is, i.Fits pool) {n : ℕ}
    (hn : (encodeAll is).length ≤ n) : relocateFrom script.table base n (encodeAll is) =
      codeOf ((readings is).map (MetalInstr.move base)) := by
  induction is generalizing n with
  | nil => cases n <;> rfl
  | cons i is ih =>
    obtain ⟨hi, his⟩ := forall_mem_cons.mp h
    rw [encodeAll_cons] at hn ⊢
    obtain ⟨m, hm, hrun⟩ := relocateFrom_encode script base hi hn
    rw [hrun, ih his hm, ← codeOf_append, ← map_append]
    rfl

end Walk

namespace BytecodeChunk

/-- The instructions that the machine reads in the body. -/
def instrs (chunk : BytecodeChunk) : List MetalInstr := decodeAll chunk.body

variable {chunk : BytecodeChunk} {is : List Instr}

theorem body_of_code {code : Bytes} (h : chunk.code = code ++ [OpCode.ret.byte]) :
    chunk.body = code := by
  unfold BytecodeChunk.body
  rw [h, getLast?_concat, if_pos rfl, dropLast_concat]

theorem Written.body (h : chunk.Written is) : chunk.body = encodeAll is := body_of_code h.code

theorem readable_readings {pool : ℕ} (h : ∀ i ∈ is, i.Fits pool) {rest : List MetalInstr}
    (hrest : Readable false rest) : Readable false (readings is ++ rest) := by
  induction is with
  | nil => exact hrest
  | cons i is ih =>
    obtain ⟨hi, his⟩ := forall_mem_cons.mp h
    rw [show readings (i :: is) = i.reading ++ readings is from rfl, append_assoc]
    exact readable_reading hi (ih his)

theorem Written.readable (h : chunk.Written is) : Readable false (readings is) := by
  rw [← append_nil (readings is)]
  exact readable_readings h.fits trivial

theorem Written.instrs (h : chunk.Written is) : chunk.instrs = readings is := by
  unfold BytecodeChunk.instrs
  rw [h.body, ← codeOf_readings, decodeAll_codeOf h.readable]

end BytecodeChunk

/-- The instructions of the chunks, moved behind the constants of the chunks before them. -/
def linkedInstrs (base : ℕ) : List BytecodeChunk → List MetalInstr
  | [] => []
  | chunk :: rest =>
    chunk.instrs.map (MetalInstr.move base) ++ linkedInstrs (base + chunk.constants.length) rest

section Link
variable {chunks : List BytecodeChunk} (h : ∀ chunk ∈ chunks, ∃ is, chunk.Written is)

include h

theorem foldl_linkInto (script : LinkScript) (main : BytecodeChunk) :
    chunks.foldl (linkInto script.table) main =
      { code := main.code ++ codeOf (linkedInstrs main.constants.length chunks)
        constants := main.constants ++ chunks.flatMap BytecodeChunk.constants } := by
  induction chunks generalizing main with
  | nil => simp [linkedInstrs, codeOf]
  | cons chunk rest ih =>
    obtain ⟨⟨is, hchunk⟩, hrest⟩ := forall_mem_cons.mp h
    rw [foldl_cons, ih hrest]
    unfold linkInto relocate
    rw [hchunk.body, relocateFrom_encodeAll script _ hchunk.fits le_rfl]
    simp [linkedInstrs, hchunk.instrs, codeOf_append]

theorem readable_linkedInstrs (base : ℕ) : Readable false (linkedInstrs base chunks) := by
  induction chunks generalizing base with
  | nil => trivial
  | cons chunk rest ih =>
    obtain ⟨⟨is, hchunk⟩, hrest⟩ := forall_mem_cons.mp h
    unfold linkedInstrs
    rw [hchunk.instrs]
    exact (BytecodeChunk.readable_readings hchunk.fits (ih hrest _)).map_move base

theorem link_spec {script : LinkScript} {main : BytecodeChunk}
    (hlink : link script chunks = some main) : main.instrs = linkedInstrs 0 chunks ∧
      main.constants = chunks.flatMap BytecodeChunk.constants ∧ main.constants.length < 65536 := by
  unfold link at hlink
  rw [foldl_linkInto h script] at hlink
  by_cases hlen : ([] ++ chunks.flatMap BytecodeChunk.constants).length < 65536 ∧
      ∀ c ∈ [] ++ chunks.flatMap BytecodeChunk.constants, c.Packs
  · rw [if_pos hlen] at hlink
    cases hlink
    refine ⟨?_, rfl, hlen.1⟩
    unfold BytecodeChunk.instrs
    rw [BytecodeChunk.body_of_code rfl]
    exact decodeAll_codeOf (readable_linkedInstrs h 0)
  · rw [if_neg hlen] at hlink
    cases hlink

end Link
end SageOS
