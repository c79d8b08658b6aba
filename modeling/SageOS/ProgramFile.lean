import Mathlib.Data.List.DropRight
import Mathlib.Data.Nat.Digits.Defs
import SageOS.BytecodeCompiler
import SageOS.Reading

/-!
# Bytecode files

`bytecode_program_write_file` writes a program line by line, with strings, parameter names and
code as lines of hexadecimal digits after their declared length. `bytecode_program_read_file`
reads it back. Counts are parsed into an `int`, and the arrays of the program grow by doubling a
capacity of type `int`; a doubling that overflows has no result. Line and column tables are left
out, and allocation succeeds.
-/
namespace SageOS

structure BytecodeProgram where
  functions : List BytecodeFunction := []
  chunks : List BytecodeChunk := []
  deriving DecidableEq

/-- How the C library prints a double with `%.17g` and reads it with `strtod`. -/
structure NumberFormat where
  print : UInt64 → Bytes
  parse : Bytes → Option UInt64

def newline : UInt8 := 10

def carriageReturn : UInt8 := 13

/-- What `%d` and `%zu` print. -/
def decimal (n : ℕ) : Bytes :=
  if n = 0 then [48] else ((Nat.digits 10 n).map fun d => UInt8.ofNat (48 + d)).reverse

def textLine (text : Bytes) : Bytes := text ++ [newline]

def hexDigit (value : ℕ) : UInt8 :=
  UInt8.ofNat (if value < 10 then 48 + value else 97 + (value - 10))

def hexPair (b : UInt8) : Bytes := [hexDigit (b.toNat / 16), hexDigit (b.toNat % 16)]

def writeHexLine (bs : Bytes) : Bytes := textLine (bs.flatMap hexPair)

def countLine (head : String) (n : ℕ) : Bytes := textLine (bytes head ++ decimal n)

/-- The characters of an array of `char` before its first NUL. -/
def cText (s : Bytes) : Bytes := s.takeWhile (· ≠ 0)

def writeText (head : String) (s : Bytes) : Bytes :=
  countLine head (cText s).length ++ writeHexLine (cText s)

def writeConstant (fmt : NumberFormat) : BytecodeConst → Bytes
  | .number x => textLine (bytes "number " ++ fmt.print x)
  | .string s => writeText "string " s

def writeChunkPayload (fmt : NumberFormat) (chunk : BytecodeChunk) (endMarker : String) : Bytes :=
  countLine "constants " chunk.constants.length ++ chunk.constants.flatMap (writeConstant fmt) ++
    countLine "code " chunk.code.length ++ writeHexLine chunk.code ++ textLine (bytes endMarker)

def writeFunction (fmt : NumberFormat) (f : BytecodeFunction) : Bytes :=
  textLine (bytes "function") ++ countLine "params " f.params.length ++
    f.params.flatMap (writeText "param ") ++ writeChunkPayload fmt f.chunk "endfunction"

def writeChunk (fmt : NumberFormat) (chunk : BytecodeChunk) : Bytes :=
  textLine (bytes "chunk") ++ writeChunkPayload fmt chunk "endchunk"

def bytecodeProgramWriteFile (fmt : NumberFormat) (p : BytecodeProgram) : Bytes :=
  textLine (bytes "SAGEBC1") ++ countLine "functions " p.functions.length ++
    p.functions.flatMap (writeFunction fmt) ++ countLine "chunks " p.chunks.length ++
    p.chunks.flatMap (writeChunk fmt)

abbrev FileReader := Reading Bytes String

open Reading

/-- `getline`: a line with its newline, and the rest of the file. -/
def getline (file : Bytes) : Option (Bytes × Bytes) :=
  if file = [] then none
  else
    match file.dropWhile (· ≠ newline) with
    | [] => some (file, [])
    | _ :: rest => some (textLine (file.takeWhile (· ≠ newline)), rest)

/-- `read_trimmed_line`, and the C string that the trimmed line is. -/
def readTrimmedLine (file : Bytes) : Option (Bytes × Bytes) :=
  (getline file).map fun r =>
    (cText (r.1.rdropWhile fun c => c = newline ∨ c = carriageReturn), r.2)

def nextLine (eof : String) : FileReader Bytes := fun file =>
  match readTrimmedLine file with
  | none => some (.error eof)
  | some r => some (.ok r)

def isSpace (c : UInt8) : Bool := c = 32 || (9 ≤ c && c ≤ 13)

def isDigit (c : UInt8) : Bool := 48 ≤ c && c ≤ 57

def digitsValue (ds : Bytes) : ℕ := ds.foldl (fun n c => n * 10 + (c.toNat - 48)) 0

/-- `strtol` with base 10: the value, the digits and what follows them. -/
def strtol (text : Bytes) : ℤ × Bytes × Bytes :=
  let unsigned (t : Bytes) := (t.takeWhile isDigit, t.dropWhile isDigit)
  match text.dropWhile isSpace with
  | 45 :: t => (-(digitsValue (unsigned t).1 : ℤ), unsigned t)
  | 43 :: t => (digitsValue (unsigned t).1, unsigned t)
  | t => (digitsValue (unsigned t).1, unsigned t)

def parseNonnegativeInt (text : Bytes) : Option ℕ :=
  let r := strtol text
  if r.2.1 = [] ∨ r.2.2 ≠ [] ∨ r.1 < 0 ∨ 0x7fffffff < r.1 then none else some r.1.toNat

def hexValue (c : UInt8) : Option ℕ :=
  if 48 ≤ c ∧ c ≤ 57 then some (c.toNat - 48)
  else if 97 ≤ c ∧ c ≤ 102 then some (10 + (c.toNat - 97))
  else if 65 ≤ c ∧ c ≤ 70 then some (10 + (c.toNat - 65))
  else none

def decodeHexPairs : Bytes → Option Bytes
  | high :: low :: rest => do
    let h ← hexValue high
    let l ← hexValue low
    let bs ← decodeHexPairs rest
    return UInt8.ofNat (h * 16 + l) :: bs
  | _ => some []

def decodeHexLine (hex : Bytes) (byteCount : ℕ) : Option Bytes :=
  if hex.length ≠ byteCount * 2 then none else decodeHexPairs hex

/-- A line that has to start with `head`. -/
def lineAfter (head : String) (missing : String) : FileReader Bytes := do
  let line ← nextLine missing
  if strncmp line (bytes head) (bytes head).length = 0 then return line.drop (bytes head).length
  else refuse missing

def parseCount (text : Bytes) (invalid : String) : FileReader ℕ :=
  match parseNonnegativeInt text with
  | some n => return n
  | none => refuse invalid

def countAfter (head missing invalid : String) : FileReader ℕ := do
  parseCount (← lineAfter head missing) invalid

def hexLine (byteCount : ℕ) (eof invalid : String) : FileReader Bytes := do
  match decodeHexLine (← nextLine eof) byteCount with
  | some bs => return bs
  | none => refuse invalid

def expectLine (text missing : String) : FileReader Unit := do
  if strcmp (← nextLine missing) (bytes text) = 0 then return () else refuse missing

/-- An array that grows by one element at a time. -/
structure Growing (α : Type) where
  items : List α := []
  capacity : ℕ := 0

/-- The capacity starts at `initial` and doubles whenever the array is full. -/
def Growing.append {α : Type} (initial : ℕ) (g : Growing α) (a : α) : FileReader (Growing α) :=
  if g.items.length + 1 ≤ g.capacity then return ⟨g.items ++ [a], g.capacity⟩
  else
    let capacity := if g.capacity = 0 then initial else g.capacity * 2
    if capacity < 2 ^ 31 then return ⟨g.items ++ [a], capacity⟩ else stuck

/-- A counted loop whose elements are appended to an array. -/
def readMany {α : Type} (initial : ℕ) (read : FileReader α) :
    ℕ → Growing α → FileReader (Growing α)
  | 0, g => return g
  | n + 1, g => do
    let g' ← g.append initial (← read)
    readMany initial read n g'

def doubleUntil (needed : ℕ) : ℕ → ℕ → Option ℕ
  | 0, _ => none
  | fuel + 1, capacity =>
    if needed ≤ capacity then some capacity
    else if capacity * 2 < 2 ^ 31 then doubleUntil needed fuel (capacity * 2)
    else none

/-- `ensure_code_capacity` for an empty chunk. -/
def ensureCodeCapacity (needed : ℕ) : FileReader Unit :=
  if needed = 0 then return ()
  else
    match doubleUntil needed 31 64 with
    | some _ => return ()
    | none => stuck

def readConstant (fmt : NumberFormat) : FileReader BytecodeConst := do
  let line ← nextLine "Unexpected EOF while reading constants."
  if strncmp line (bytes "number ") 7 = 0 then
    match fmt.parse (line.drop 7) with
    | some x => return .number x
    | none => refuse "Invalid number constant in VM artifact."
  else if strncmp line (bytes "string ") 7 = 0 then
    let n ← parseCount (line.drop 7) "Invalid string length in VM artifact."
    let bs ← hexLine n "Unexpected EOF while reading string constant."
      "Invalid string constant payload in VM artifact."
    return .string (cText bs)
  else refuse "Unknown constant entry in VM artifact."

def readChunkConstants (fmt : NumberFormat) : FileReader (List BytecodeConst) := do
  let n ← countAfter "constants " "Missing constant table in VM artifact."
    "Invalid constant count in VM artifact."
  let g ← readMany 16 (readConstant fmt) n {}
  return g.items

def readCodePayload (endMarker : String) : FileReader Bytes := do
  let n ← countAfter "code " "Missing bytecode payload in VM artifact."
    "Invalid code size in VM artifact."
  ensureCodeCapacity n
  let code ← hexLine n "Unexpected EOF while reading bytecode payload."
    "Invalid bytecode payload in VM artifact."
  expectLine endMarker "Missing VM artifact end marker."
  return code

def readChunkPayload (fmt : NumberFormat) (endMarker : String) : FileReader BytecodeChunk := do
  let constants ← readChunkConstants fmt
  let code ← readCodePayload endMarker
  return ⟨code, constants⟩

def readParam : FileReader Bytes := do
  let n ← countAfter "param " "Invalid function parameter entry in VM artifact."
    "Invalid function parameter entry in VM artifact."
  let bs ← hexLine n "Unexpected EOF while reading function parameter."
    "Invalid function parameter payload in VM artifact."
  return cText bs

def readParams : ℕ → FileReader (List Bytes)
  | 0 => return []
  | n + 1 => do
    let param ← readParam
    return param :: (← readParams n)

def readFunction (fmt : NumberFormat) : FileReader BytecodeFunction := do
  expectLine "function" "Invalid function marker in VM artifact."
  let n ← countAfter "params " "Missing function parameter table in VM artifact."
    "Invalid function parameter count in VM artifact."
  let params ← readParams n
  let chunk ← readChunkPayload fmt "endfunction"
  return ⟨params, chunk⟩

def readChunk (fmt : NumberFormat) : FileReader BytecodeChunk := do
  expectLine "chunk" "Invalid chunk marker in VM artifact."
  readChunkPayload fmt "endchunk"

/-- The optional table of functions, and the line after it. -/
def readFunctionTable (fmt : NumberFormat) (line : Bytes) :
    FileReader (List BytecodeFunction × Bytes) := do
  if strncmp line (bytes "functions ") 10 = 0 then
    let n ← parseCount (line.drop 10) "Invalid function count in VM artifact."
    let g ← readMany 8 (readFunction fmt) n {}
    return (g.items, ← nextLine "Unexpected EOF while reading chunk table.")
  else return ([], line)

/-- `bytecode_program_read_file` into an empty program. -/
def bytecodeProgramReadFile (fmt : NumberFormat) : FileReader BytecodeProgram := do
  expectLine "SAGEBC1" "Invalid VM artifact header."
  let line ← nextLine "Unexpected EOF while reading VM artifact."
  let (functions, line) ← readFunctionTable fmt line
  if strncmp line (bytes "chunks ") 7 = 0 then
    let n ← parseCount (line.drop 7) "Invalid chunk count in VM artifact."
    let g ← readMany 8 (readChunk fmt) n {}
    return ⟨functions, g.items⟩
  else refuse "Missing chunk table in VM artifact."

end SageOS
