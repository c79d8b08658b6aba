import SageOS.MetalVm

/-!
# Loading an image

`metal_vm_load_binary` walks over the file with a position of type `int`: constants of the main
program, its code, and for every function its parameters, constants and code. Positions and
lengths are added with wrap-around, and every byte that is read goes through `dataAt`.
-/
namespace SageOS

def addInt (a b : ℤ) : ℤ := (a + b).bmod (2 ^ 32)

structure SgvmFile where
  data : Bytes
  length_lt : data.length < 2 ^ 31

namespace MetalVM
open Checked

def dataAt (i : ℤ) : Run ℕ := do
  require fun vm => 0 ≤ i ∧ i < vm.image.length
  return ((← get).image.getD i.toNat 0).toNat

/-- Little-endian bytes from position `pos` on. -/
def readLe : ℕ → ℤ → Run ℕ
  | 0, _ => return 0
  | n + 1, pos => do
    let b ← dataAt pos
    let rest ← readLe n (pos + 1)
    return b + 256 * rest

def readBytes : ℕ → ℤ → Run Bytes
  | 0, _ => return []
  | n + 1, pos => do
    let b ← dataAt pos
    let rest ← readBytes n (pos + 1)
    return UInt8.ofNat b :: rest

/-- One constant and the position after it; `none` leaves the loop of the pool. -/
def loadConst (length pos : ℤ) : Run (Option MetalValue × ℤ) := do
  if length ≤ pos then return (none, pos)
  else
    let type ← dataAt pos
    let pos₁ := addInt pos 1
    if type = 1 then
      if length < addInt pos₁ 8 then return (none, pos₁)
      else
        let bits ← readLe 8 pos₁
        return (some (mvNum (UInt64.ofNat bits)), addInt pos₁ 8)
    else if type = 2 then
      if length < addInt pos₁ 2 then return (none, pos₁)
      else
        let slen ← readLe 2 pos₁
        let pos₂ := addInt pos₁ 2
        if length < addInt pos₂ slen then return (none, pos₂)
        else
          let s ← readBytes slen pos₂
          let v ← mvStr s
          return (some v, addInt pos₂ slen)
    else return (some mvNil, pos₁)

def loadConsts (length : ℤ) : ℕ → ℤ → Run (List MetalValue × ℤ)
  | 0, pos => return ([], pos)
  | n + 1, pos => do
    let r ← loadConst length pos
    match r.1 with
    | none => return ([], r.2)
    | some v => do
      let rest ← loadConsts length n r.2
      return (v :: rest.1, rest.2)

/-- The declared count is recorded, up to `max`, however many constants were stored. -/
def loadConstPool (length pos : ℤ) (max : ℕ) : Run (ConstPool × ℤ) := do
  if length < addInt pos 2 then return ({}, pos)
  else
    let count ← readLe 2 pos
    let r ← loadConsts length count (addInt pos 2)
    return ({ decoded := r.1.take max, count := min count max }, r.2)

/-- The length of a piece of code and its bytes: the reference and the position after it. -/
def loadCode (length pos : ℤ) : Run (Option (CodeRef × ℤ)) := do
  if length < addInt pos 4 then return none
  else
    let word ← readLe 4 pos
    let pos₁ := addInt pos 4
    let len := toCInt word
    if length < addInt pos₁ len then return none
    else return some (⟨pos₁, len⟩, addInt pos₁ len)

def loadParams (length : ℤ) : ℕ → ℤ → Run (Option (List UInt32 × ℤ))
  | 0, pos => return some ([], pos)
  | n + 1, pos => do
    if length < addInt pos 4 then return none
    else
      let hash ← readLe 4 pos
      let rest ← loadParams length n (addInt pos 4)
      return rest.map fun r => (UInt32.ofNat hash :: r.1, r.2)

/-- The constants of a function are stored on the heap of the machine, 16 bytes each. -/
def loadFnPool (length pos : ℤ) : Run (Option (ConstPool × ℤ)) := do
  if length < addInt pos 2 then return none
  else
    let peek ← readLe 2 pos
    if metalHeapSize < (← get).heapUsed + peek * 16 then return none
    else
      let r ← loadConstPool length pos peek
      modify fun vm => { vm with heapUsed := vm.heapUsed + r.1.count * 16 }
      return some r

def loadFunction (length pos : ℤ) : Run (Option (MetalFunction × ℤ)) := do
  if length < addInt pos 2 then return none
  else
    let paramCount ← readLe 2 pos
    if 8 < paramCount then return none
    else
      match ← loadParams length paramCount (addInt pos 2) with
      | none => return none
      | some (hashes, pos₁) =>
        match ← loadFnPool length pos₁ with
        | none => return none
        | some (pool, pos₂) =>
          match ← loadCode length pos₂ with
          | none => return none
          | some (code, pos₃) =>
            return some ({ code := code, constants := pool, paramNameHashes := hashes }, pos₃)

def loadFunctions (length : ℤ) : ℕ → ℤ → Run (Option (List MetalFunction))
  | 0, _ => return some []
  | n + 1, pos => do
    match ← loadFunction length pos with
    | none => return none
    | some (fn, pos₁) =>
      let rest ← loadFunctions length n pos₁
      return rest.map (fn :: ·)

/-- The function table; a file may end before it. The entries are stored together once all of them
are read: what a rejected file leaves in the table is never used. -/
def loadFnTable (length pos : ℤ) : Run Bool := do
  if length < addInt pos 2 then return true
  else
    let fnCount ← readLe 2 pos
    if metalPoolMax < fnCount then return false
    else
      match ← loadFunctions length fnCount (addInt pos 2) with
      | none => return false
      | some fns =>
        modify fun vm =>
          { vm with fnCount := fnCount, functions := fun i => fns.getD i (vm.functions i) }
        return true

def loadBody (length : ℤ) : Run Bool := do
  let main ← loadConstPool length 5 metalConstPool
  modify fun vm => { vm with constants := main.1 }
  match ← loadCode length main.2 with
  | none => return false
  | some (code, pos) =>
    modify fun vm => { vm with code := code, ip := 0 }
    loadFnTable length pos

def metalVmLoadBinary (file : SgvmFile) : Run Bool := do
  modify fun vm => { vm with image := file.data }
  if file.data.length < 9 then return false
  else
    let magic ← readBytes 4 0
    if magic ≠ bytes "SGVM" then return false
    else
      let version ← dataAt 4
      if version ≠ 2 then return false
      else loadBody file.data.length

def metalVmInit : MetalVM := {}

end MetalVM
end SageOS
