import SageOS.Elf
import SageOS.FaultFree
import SageOS.Vfs

/-!
# The accesses of the ELF loader

`elf_exec` and `sys_execve` with every read of the file buffer, every write of segment data and
every write of argument data checked against the memory it belongs to. A load ends with a fault at
the first access outside, with a returned code, or with control passed to the program. File offsets
are not reduced modulo the address space: an offset that would wrap around is behind the buffer
before it does.
-/
namespace SageOS
open FaultFree

inductive ElfFault
  | file (offset : ℕ)
  | segment (addr : ℕ)
  | stack (offset : ℤ)
  deriving DecidableEq, Repr

namespace Elf

abbrev Loading := Except ElfFault

/-- A block from the arena, whose blocks are aligned to 16 bytes. -/
structure StackBlock where
  addr : ℕ
  aligned : addr % 16 = 0

def stackSize : ℕ := 65536

def readByte (data : Bytes) (offset : ℕ) : Loading UInt8 :=
  match data[offset]? with
  | some b => pure b
  | none => throw (.file offset)

def writeSegment (addr : ℕ) : Loading Unit :=
  if elfVaddrMin ≤ addr ∧ addr < elfVaddrMax then pure () else throw (.segment addr)

/-- A byte of the stack block, by its offset in the block. -/
def writeStack (offset : ℤ) : Loading Unit :=
  if 0 ≤ offset ∧ offset < stackSize then pure () else throw (.stack offset)

def readField (data : Bytes) (offset : ℕ) : ℕ → Loading ℕ
  | 0 => pure 0
  | n + 1 => do
    let b ← readByte data offset
    let rest ← readField data (offset + 1) n
    pure (b.toNat + 256 * rest)

def validate (machine : ℕ) (data : Bytes) : Loading Bool :=
  if data.length < 64 then pure false
  else do
    let magic ← readField data 0 4
    let fileClass ← readField data 4 1
    let encoding ← readField data 5 1
    let type ← readField data 16 2
    let arch ← readField data 18 2
    let phoff ← readField data 32 8
    let phnum ← readField data 56 2
    pure (decide (magic = 0x464C457F ∧ fileClass = 2 ∧ encoding = 1 ∧ type = 2 ∧ arch = machine ∧
      phoff ≠ 0 ∧ phnum ≠ 0))

/-- The bytes of a segment that are in the file, and the zeros behind them. -/
def copySegment (data : Bytes) (vaddr offset filesz memsz : ℕ) : Loading Unit := do
  repeatFrom (fun j => do
    let _ ← readByte data (offset + j)
    writeSegment (vaddr + j)) filesz 0
  repeatFrom (fun j => writeSegment (vaddr + j)) (memsz - filesz) filesz

/-- The segment of a program header; false when it is refused. -/
def mapSegment (data : Bytes) (phoff i : ℕ) : Loading Bool := do
  let type ← readField data (phoff + 56 * i) 4
  if type ≠ 1 then pure true
  else
    let vaddr ← readField data (phoff + 56 * i + 16) 8
    if vaddr < elfVaddrMin then pure false
    else
      let memsz ← readField data (phoff + 56 * i + 40) 8
      if elfVaddrMax < (vaddr + memsz) % 2 ^ 64 then pure false
      else
        let offset ← readField data (phoff + 56 * i + 8) 8
        let filesz ← readField data (phoff + 56 * i + 32) 8
        copySegment data vaddr offset filesz memsz
        pure true

def mapSegments (data : Bytes) (phoff : ℕ) : ℕ → ℕ → Loading Bool
  | 0, _ => pure true
  | n + 1, i => do
    if ← mapSegment data phoff i then mapSegments data phoff n (i + 1) else pure false

def pushString (sp : ℤ) (s : CStr) : Loading ℤ := do
  repeatFrom (fun j => writeStack (sp - (s.chars.length + 1 : ℕ) + j)) (s.chars.length + 1) 0
  pure (sp - (s.chars.length + 1 : ℕ))

def pushStrings (sp : ℤ) : List CStr → Loading ℤ
  | [] => pure sp
  | s :: rest => do
    let sp ← pushString sp s
    pushStrings sp rest

def pushWords (sp : ℤ) (n : ℕ) : Loading ℤ := do
  repeatFrom (fun j => writeStack (sp - (8 * n : ℕ) + j)) (8 * n) 0
  pure (sp - (8 * n : ℕ))

/-- The strings, then the two pointer arrays and the count at an aligned address. -/
def pushArguments (stack : StackBlock) (argv envp : List CStr) : Loading ℤ := do
  let sp ← pushStrings stackSize envp.reverse
  let sp ← pushStrings sp argv.reverse
  let sp := (stack.addr + sp) / 16 * 16 - stack.addr
  let words := 8 + (argv.length + 1) * 8 + (envp.length + 1) * 8
  let sp := if words % 16 ≠ 0 then sp - 8 else sp
  let sp ← pushWords sp (envp.length + 1)
  let sp ← pushWords sp (argv.length + 1)
  pushWords sp 1

/-- `none` when control passes to the program; `stack` is the block that the arena gives. -/
def exec (machine : ℕ) (data : Bytes) (argv envp : List CStr) (stack : Option StackBlock) :
    Loading (Option ℤ) := do
  if ← validate machine data then
    let phoff ← readField data 32 8
    let phnum ← readField data 56 2
    if ← mapSegments data phoff phnum 0 then
      match stack with
      | none => pure (some (-1))
      | some stack =>
        let _ ← pushArguments stack argv envp
        pure none
    else pure (some (-1))
  else pure (some (-1))

def spanFrom (data : Bytes) (phoff : ℕ) : ℕ → ℕ → ℕ × ℕ → Loading (ℕ × ℕ)
  | 0, _, s => pure s
  | n + 1, i, s => do
    let type ← readField data (phoff + 56 * i) 4
    if type = 1 then
      let vaddr ← readField data (phoff + 56 * i + 16) 8
      let memsz ← readField data (phoff + 56 * i + 40) 8
      spanFrom data phoff n (i + 1) (min s.1 vaddr, max s.2 ((vaddr + memsz) % 2 ^ 64))
    else spanFrom data phoff n (i + 1) s

/-- What the rest of the kernel gives to a load: whether the file buffer could be allocated and
the file read into it, and the stack block. -/
structure LoadEnv where
  machine : ℕ
  buffer : Bool
  fileRead : Bool
  stack : Option StackBlock

/-- `sys_execve` on a file that exists; an empty buffer is never allocated. -/
def execve (env : LoadEnv) (data : Bytes) (argv envp : List CStr) : Loading (Option ℤ) :=
  if data.length = 0 ∨ env.buffer = false then pure (some (-vfsENOSPC))
  else if env.fileRead = false then pure (some (-vfsEio))
  else do
    let phoff ← readField data 32 8
    let phnum ← readField data 56 2
    let _ ← spanFrom data phoff phnum 0 (2 ^ 64 - 1, 0)
    exec env.machine data argv envp env.stack

end Elf
end SageOS
