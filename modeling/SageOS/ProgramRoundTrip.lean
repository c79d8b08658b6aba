import SageOS.Binary64
import SageOS.ProgramText

/-!
# Reading back a bytecode file

Each reader is applied to what the writer of the same part produced. The parts are put together with
the rules for readers.
-/
namespace SageOS
open Reading List

/-- A C string whose length is an `int`. -/
def IsText (s : Bytes) : Prop := 0 ∉ s ∧ s.length < 2 ^ 31

instance : DecidablePred IsText := fun s => inferInstanceAs (Decidable (0 ∉ s ∧ s.length < 2 ^ 31))

variable (fmt : NumberFormat)

/-- A number that is read back from the line it was printed to. -/
structure NumberFormat.Exact (x : UInt64) : Prop where
  parse_print : fmt.parse (fmt.print x) = some x
  plain : Plain (fmt.print x)

def BytecodeConst.Valid : BytecodeConst → Prop
  | .number x => fmt.Exact x
  | .string s => IsText s

structure BytecodeChunk.Valid (c : BytecodeChunk) : Prop where
  constants : ∀ k ∈ c.constants, k.Valid fmt
  constantCount : c.constants.length ≤ 2 ^ 30
  code : c.code.length ≤ 2 ^ 30

structure BytecodeFunction.Valid (f : BytecodeFunction) : Prop where
  params : ∀ s ∈ f.params, IsText s
  paramCount : f.params.length < 2 ^ 31
  chunk : f.chunk.Valid fmt

/-- The numbers are printed exactly, and the sizes are those a program in memory can have. Its
arrays were grown by doubling an `int` capacity, in the compiler as in the reader. The lexer bounds
names and literals, and folding does not build longer strings than 64 KiB. -/
structure BytecodeProgram.Valid (p : BytecodeProgram) : Prop where
  functions : ∀ f ∈ p.functions, f.Valid fmt
  functionCount : p.functions.length ≤ 2 ^ 30
  chunks : ∀ c ∈ p.chunks, c.Valid fmt
  chunkCount : p.chunks.length ≤ 2 ^ 30

variable {fmt}

/-- The words of the format. -/
theorem plain_word {w : String} (hw : w ∈ ["number ", "string ", "constants ", "code ", "params ",
    "param ", "function", "endfunction", "functions ", "chunk", "endchunk", "chunks ", "SAGEBC1"]) :
    Plain (bytes w) := by
  revert w
  decide +kernel

theorem undoes_readConstant {k : BytecodeConst} (hk : k.Valid fmt) :
    Undoes (readConstant fmt) (writeConstant fmt k) k := by
  cases k with
  | number v =>
    have hhead : Plain (bytes "number ") := plain_word (by simp)
    have hzero : strncmp (bytes "number " ++ fmt.print v) (bytes "number ") 7 = 0 :=
      strncmp_head hhead _
    have hdrop : (bytes "number " ++ fmt.print v).drop 7 = fmt.print v :=
      drop_left' (by decide)
    refine (undoes_nextLine (hhead.append hk.plain) _).bind (v := []) ?_ (append_nil _).symm
    rw [if_pos hzero, hdrop, hk.parse_print]
    exact .pure _
  | string s =>
    have hhead : Plain (bytes "string ") := plain_word (by simp)
    have htext : cText s = s := cText_eq_self hk.1
    have hzero : strncmp (bytes "string " ++ decimal s.length) (bytes "string ") 7 = 0 :=
      strncmp_head hhead _
    have hstring := (undoes_hexLine s "Unexpected EOF while reading string constant."
      "Invalid string constant payload in VM artifact.").map (f := fun bs =>
        BytecodeConst.string (cText bs))
    rw [htext] at hstring
    refine (undoes_nextLine (hhead.append (plain_decimal s.length)) _).bind
      (v := writeHexLine s) ?_ (by simp only [writeConstant, writeText, countLine, htext])
    exact (undoes_parseCount hk.2 _).check hstring

variable {c : BytecodeChunk}

theorem undoes_readChunkConstants (hc : c.Valid fmt) :
    Undoes (readChunkConstants fmt)
      (countLine "constants " c.constants.length ++ c.constants.flatMap (writeConstant fmt))
      c.constants := by
  have hcount := hc.constantCount
  obtain ⟨g, hg, hmany⟩ := exists_readAll (n := 16) (i := 4)
    (fun k hk => undoes_readConstant (hc.constants k hk)) rfl (by decide) hcount
  have hitems := hmany.map (f := Growing.items)
  rw [hg] at hitems
  exact (undoes_countAfter (plain_word (by simp)) _ _ (by omega)).bind hitems rfl

theorem undoes_readCodePayload {code : Bytes} (hcode : code.length ≤ 2 ^ 30) {endMarker : String}
    (hend : Plain (bytes endMarker)) :
    Undoes (readCodePayload endMarker) (countLine "code " code.length ++
      (writeHexLine code ++ textLine (bytes endMarker))) code := by
  refine (undoes_countAfter (plain_word (by simp)) _ _ (by omega)).bind ?_ rfl
  refine (undoes_ensureCodeCapacity hcode).check ((undoes_hexLine code _ _).bind ?_ rfl)
  exact (undoes_expectLine hend _).bind (.pure code) (append_nil _).symm

theorem undoes_readChunkPayload (hc : c.Valid fmt) {endMarker : String}
    (hend : Plain (bytes endMarker)) :
    Undoes (readChunkPayload fmt endMarker) (writeChunkPayload fmt c endMarker) c :=
  (undoes_readChunkConstants hc).bind ((undoes_readCodePayload hc.code hend).map)
    (by simp only [writeChunkPayload, append_assoc])

theorem undoes_readParam {s : Bytes} (hs : IsText s) :
    Undoes readParam (writeText "param " s) s := by
  have htext : cText s = s := cText_eq_self hs.1
  have hname := (undoes_hexLine s "Unexpected EOF while reading function parameter."
    "Invalid function parameter payload in VM artifact.").map (f := cText)
  rw [htext] at hname
  unfold writeText
  rw [htext]
  exact (undoes_countAfter (plain_word (by simp)) _ _ hs.2).bind hname rfl

theorem undoes_readParams {l : List Bytes} (hl : ∀ s ∈ l, IsText s) :
    Undoes (readParams l.length) (l.flatMap (writeText "param ")) l := by
  induction l with
  | nil => exact .pure []
  | cons s l ih =>
    have hrest := (ih fun x hx => hl x (mem_cons_of_mem s hx)).map (f := fun l => s :: l)
    exact (undoes_readParam (hl s mem_cons_self)).bind hrest rfl

theorem undoes_readFunction {f : BytecodeFunction} (hf : f.Valid fmt) :
    Undoes (readFunction fmt) (writeFunction fmt f) f := by
  have hend : Plain (bytes "endfunction") := plain_word (by simp)
  refine (undoes_expectLine (plain_word (by simp)) _).bind ?_
    (by simp only [writeFunction, append_assoc]; rfl)
  refine (undoes_countAfter (plain_word (by simp)) _ _ hf.paramCount).bind ?_ rfl
  exact (undoes_readParams hf.params).bind ((undoes_readChunkPayload hf.chunk hend).map) rfl

theorem undoes_readChunk (hc : c.Valid fmt) :
    Undoes (readChunk fmt) (writeChunk fmt c) c :=
  (undoes_expectLine (plain_word (by simp)) _).bind
    (undoes_readChunkPayload hc (plain_word (by simp))) rfl

theorem undoes_readFunctionTable {fs : List BytecodeFunction} (hfs : ∀ f ∈ fs, f.Valid fmt)
    (hcount : fs.length ≤ 2 ^ 30) (n : ℕ) :
    Undoes (readFunctionTable fmt (bytes "functions " ++ decimal fs.length))
      (fs.flatMap (writeFunction fmt) ++ countLine "chunks " n)
      (fs, bytes "chunks " ++ decimal n) := by
  have hhead : Plain (bytes "functions ") := plain_word (by simp)
  have hchunks : Plain (bytes "chunks ") := plain_word (by simp)
  have hdrop : (bytes "functions " ++ decimal fs.length).drop 10 = decimal fs.length :=
    drop_left' (by decide)
  obtain ⟨g, hg, hmany⟩ := exists_readAll (n := 8) (i := 3)
    (fun f hf => undoes_readFunction (hfs f hf)) rfl (by decide) hcount
  refine (undoes_parseCount (by omega) _).check (hmany.bind ?_ rfl)
  rw [hg]
  exact (undoes_nextLine (hchunks.append (plain_decimal n)) _).map

theorem undoes_readFile {p : BytecodeProgram} (hp : p.Valid fmt) :
    Undoes (bytecodeProgramReadFile fmt) (bytecodeProgramWriteFile fmt p) p := by
  have hfns : Plain (bytes "functions ") := plain_word (by simp)
  have hchunks : Plain (bytes "chunks ") := plain_word (by simp)
  have hdrop : (bytes "chunks " ++ decimal p.chunks.length).drop 7 = decimal p.chunks.length :=
    drop_left' (by decide)
  have hcount := hp.chunkCount
  obtain ⟨g, hg, hmany⟩ := exists_readAll (n := 8) (i := 3)
    (fun c hc => undoes_readChunk (hp.chunks c hc)) rfl (by decide) hcount
  have hitems := hmany.map (f := fun g => BytecodeProgram.mk p.functions g.items)
  rw [hg] at hitems
  refine (undoes_expectLine (plain_word (by simp)) _).bind ?_
    (by simp only [bytecodeProgramWriteFile, append_assoc]; rfl)
  refine (undoes_nextLine (hfns.append (plain_decimal _)) _).bind ?_ rfl
  refine (undoes_readFunctionTable hp.functions hp.functionCount p.chunks.length).bind ?_
    (append_assoc _ _ _).symm
  exact (undoes_parseCount (by omega) _).check hitems

/-- A program is read back from the file it was written to, with nothing left over. -/
theorem bytecode_file_round_trip (p : BytecodeProgram) (hp : p.Valid fmt) :
    bytecodeProgramReadFile fmt (bytecodeProgramWriteFile fmt p) = some (.ok (p, [])) := by
  have h := undoes_readFile hp []
  rwa [append_nil] at h

/-- The bits of the double that is a whole number below 2 ^ 53. -/
def wholeBits (n : ℕ) : UInt64 :=
  if n = 0 then 0 else UInt64.ofNat ((1022 + n.log2) * 2 ^ 52 + n * 2 ^ (52 - n.log2))

/-- `%.17g` prints a whole number below 2 ^ 53 as its decimal digits. -/
def wholeFormat : NumberFormat where
  print x := decimal (Binary64.magnitude x)
  parse text := (parseNonnegativeInt text).map wholeBits

/-- One function with an empty and a non-empty parameter name, an empty string and no code; the
number constants are 0 and 12. -/
def smallProgram : BytecodeProgram where
  functions := [⟨[[], bytes "x"], ⟨[], [.string []]⟩⟩]
  chunks := [⟨[1, 0xff], [.number 0, .number 0x4028000000000000, .string (bytes "hi")]⟩, {}]

theorem wholeFormat_exact {x : UInt64} (hmag : Binary64.magnitude x < 2 ^ 31)
    (hx : wholeBits (Binary64.magnitude x) = x) : wholeFormat.Exact x where
  parse_print := by
    change (parseNonnegativeInt (decimal _)).map wholeBits = some x
    rw [parseNonnegativeInt_decimal hmag, Option.map_some, hx]
  plain := plain_decimal _

theorem smallProgram_round_trip : smallProgram.Valid wholeFormat ∧
    bytecodeProgramReadFile wholeFormat (bytecodeProgramWriteFile wholeFormat smallProgram) =
      some (.ok (smallProgram, [])) := by
  have hvalid : smallProgram.Valid wholeFormat := by
    refine ⟨?_, by decide, ?_, by decide⟩
    · simp only [smallProgram, mem_singleton, forall_eq]
      refine ⟨by decide, by decide, ?_, by decide, by decide⟩
      simp only [mem_singleton, forall_eq]
      exact (by decide : IsText [])
    · simp only [smallProgram, mem_cons, not_mem_nil, or_false, forall_eq_or_imp, forall_eq]
      refine ⟨⟨?_, by decide, by decide⟩, nofun, by decide, by decide⟩
      simp only [mem_cons, not_mem_nil, or_false, forall_eq_or_imp, forall_eq]
      refine ⟨?_, ?_, (by decide : IsText (bytes "hi"))⟩
      · exact wholeFormat_exact (by decide +kernel) (by decide +kernel)
      · exact wholeFormat_exact (by decide +kernel) (by decide +kernel)
  exact ⟨hvalid, bytecode_file_round_trip smallProgram hvalid⟩

end SageOS
