import SageOS.BytecodeCompiler
import SageOS.SgvmRead
import SageOS.StringPool

/-!
# Packing an image

`compile_to_sgvm.py` writes the linked main program and the functions behind a header. Counts take
two bytes, lengths of code and hashes four, the lower byte first. A number is its 64 bits, a string
its length and its bytes. Packing a count that needs more bytes is an error of the script.
-/
namespace SageOS

def packLe : ℕ → ℕ → Bytes
  | 0, _ => []
  | n + 1, v => UInt8.ofNat (v % 256) :: packLe n (v / 256)

def packConst : BytecodeConst → Bytes
  | .number bits => 1 :: packLe 8 bits.toNat
  | .string s => 2 :: (packLe 2 s.length ++ s)

def packConsts (cs : List BytecodeConst) : Bytes := packLe 2 cs.length ++ cs.flatMap packConst

def packCode (code : Bytes) : Bytes := packLe 4 code.length ++ code

/-- `fnv1a` of the script. -/
def fnv1a (data : Bytes) : ℕ :=
  data.foldl (fun h b => (h ^^^ b.toNat) * 16777619 % 2 ^ 32) 2166136261

def packParams (params : List Bytes) : Bytes := params.flatMap fun param => packLe 4 (fnv1a param)

def packFunction (f : BytecodeFunction) : Bytes :=
  packLe 2 f.params.length ++ packParams f.params ++ packConsts f.chunk.constants ++
    packCode f.chunk.code

structure SgvmImage where
  main : BytecodeChunk
  functions : List BytecodeFunction

namespace SgvmImage

def pack (p : SgvmImage) : Bytes :=
  bytes "SGVM" ++ [2] ++ packConsts p.main.constants ++ packCode p.main.code ++
    packLe 2 p.functions.length ++ p.functions.flatMap packFunction

def chunks (p : SgvmImage) : List BytecodeChunk := p.main :: p.functions.map (·.chunk)

/-- `struct.pack` accepts every count and length. -/
structure Packs (p : SgvmImage) : Prop where
  functionCount : p.functions.length < 65536
  paramCount : ∀ f ∈ p.functions, f.params.length < 65536
  constCount : ∀ c ∈ p.chunks, c.constants.length < 65536
  strings : ∀ c ∈ p.chunks, ∀ s, .string s ∈ c.constants → s.length < 65536
  code : ∀ c ∈ p.chunks, c.code.length < 2 ^ 32

end SgvmImage

/-- The strings that are interned for a list of constants, after those in `ss`. -/
def addConst (ss : List Bytes) : BytecodeConst → List Bytes
  | .number _ => ss
  | .string s => addString ss s

def addConsts (ss : List Bytes) (cs : List BytecodeConst) : List Bytes := cs.foldl addConst ss

/-- The distinct strings of an image, in the order in which they are met. -/
def SgvmImage.strings (p : SgvmImage) : List Bytes :=
  p.functions.foldl (fun ss f => addConsts ss f.chunk.constants) (addConsts [] p.main.constants)

/-- The pools of the machine hold the image, and its length is an `int`. -/
structure SgvmImage.WithinLimits (p : SgvmImage) : Prop where
  mainConsts : p.main.constants.length ≤ metalConstPool
  functions : p.functions.length ≤ metalPoolMax
  heap : (p.functions.map fun f => f.chunk.constants.length * 16).sum ≤ metalHeapSize
  strings : (poolOf p.strings).length ≤ metalStringPool
  length : p.pack.length < 2 ^ 31

/-- The machine value `v` is the constant, with strings read from `pool`. -/
def BytecodeConst.StoredAs (pool : Bytes) : BytecodeConst → MetalValue → Prop
  | .number bits, v => v = mvNum bits
  | .string s, v => v.type = .str ∧ metalStringGet pool v.int = s

/-- The code that a reference leads to. -/
def CodeRef.bytes (image : Bytes) (c : CodeRef) : Bytes :=
  (image.drop c.base.toNat).take c.length.toNat

/-- Code and constants of the machine are those of a chunk. -/
structure BytecodeChunk.LoadedAs (c : BytecodeChunk) (vm : MetalVM) (code : CodeRef)
    (pool : ConstPool) : Prop where
  base : 0 ≤ code.base
  length : code.length = c.code.length
  code : code.bytes vm.image = c.code
  count : pool.count = c.constants.length
  constants : List.Forall₂ (BytecodeConst.StoredAs vm.strings) c.constants pool.decoded

structure SgvmImage.LoadedIn (p : SgvmImage) (vm : MetalVM) : Prop where
  main : p.main.LoadedAs vm vm.code vm.constants
  fnCount : vm.fnCount = p.functions.length
  functions : ∀ i f, p.functions[i]? = some f →
    f.chunk.LoadedAs vm (vm.functions i).code (vm.functions i).constants ∧
    (vm.functions i).paramNameHashes = f.params.map metalFnv1a

end SageOS
