import Mathlib.Data.UInt
import SageOS.LocalArray
import SageOS.Fat32Bounded

/-!
# The buffers of the directory scanners

The lookup and the listing of a directory assemble long names in a local array of 256 bytes that
starts without contents and persists from entry to entry; the lookup copies each name to a second
such array. Both are modelled with every access to these arrays. They stay inside and read only
what they have written exactly if no long-name entry has the order number 20 and every long name
that is used has all its parts up to its end.
-/
namespace SageOS
open LinkedChain LocalArray List

/-- The long-name array with the flag that says whether a name has been stored. -/
structure NameBuffer where
  cells : Cells UInt8 := unwritten
  active : Bool := false

/-- The bytes of a long name end at a zero or at the fill byte. -/
def IsLetter (c : UInt8) : Prop := c ≠ 0 ∧ c ≠ 0xFF

instance : DecidablePred IsLetter := fun _ => instDecidableAnd

def DirEntry.order (e : DirEntry) : ℕ := (e 0 &&& 0x1F).toNat

section Accesses
variable {ε : Type}

def putMark (cells : Cells UInt8) : Option ℕ → Access ε (Cells UInt8)
  | some len => put 256 cells len 0
  | none => pure cells

/-- Thirteen characters at the place of the order number, and the end mark after the last ones. -/
def storeChars (endMark : ℕ → Option ℕ) (b : NameBuffer) (e : DirEntry) : Access ε NameBuffer :=
  if 0 < e.order ∧ e.order ≤ 20 then do
    let cells ← putAll 256 b.cells ((e.order - 1) * 13) e.longNameChars
    let cells ← putMark cells (if e 0 &&& 0x40 ≠ 0 then endMark (e.order * 13) else none)
    pure ⟨cells, true⟩
  else pure b

def nameEnd (b : Cells UInt8) : ℕ → ℕ → Access ε ℕ
  | 0, len => pure len
  | n + 1, len => do
    let c ← load 256 b len
    if IsLetter c then nameEnd b n (len + 1) else pure len

def endName (b : Cells UInt8) : Access ε (Cells UInt8) := do
  let len ← nameEnd b 255 0
  put 256 b len 0

def streqCells (b : Cells UInt8) : ℕ → Bytes → Access ε Bool
  | i, [] => do
    let c ← load 256 b i
    pure (upper c = upper 0)
  | i, x :: rest => do
    let c ← load 256 b i
    if c = 0 ∨ upper c ≠ upper x then pure (upper c = upper x) else streqCells b (i + 1) rest

/-- The array `entry_name` of the lookup, and the long-name array after it was filled. -/
def findName (b : NameBuffer) (e : DirEntry) : Access ε (Cells UInt8 × Cells UInt8) :=
  if b.active then do
    let cells ← endName b.cells
    let entryName ← copyFrom 256 256 cells 255 0 unwritten
    pure (entryName, cells)
  else do
    let entryName ← putAll 256 unwritten 0 (e.shortName ++ [0])
    pure (entryName, b.cells)

/-- The array `name` of a listed entry, and the long-name array after it was filled. -/
def listName (b : NameBuffer) (e : DirEntry) : Access ε (Cells UInt8 × Cells UInt8) :=
  if b.active then do
    let cells ← endName b.cells
    let name ← copyFrom 256 64 cells 63 0 unwritten
    let name ← put 64 name 63 0
    pure (name, cells)
  else do
    let name ← putAll 64 unwritten 0 (e.shortName.map lower ++ [0])
    pure (name, b.cells)

end Accesses

/-- Where the lookup marks the end of a name with this many characters. -/
def findMark (len : ℕ) : Option ℕ := some (min len 255)

def listMark (len : ℕ) : Option ℕ := if len < 256 then some len else none

def findStepChecked (d : Disk) (name : Bytes) (b : NameBuffer) (s : Slot) :
    Access (Option Slot) NameBuffer :=
  if entryAt d s 0 = 0 then leave none
  else if entryAt d s 0 = 0xE5 then pure { b with active := false }
  else if (entryAt d s).attr = 0x0F then
    storeChars findMark b (entryAt d s)
  else do
    let (entryName, cells) ← findName b (entryAt d s)
    let same ← streqCells entryName 0 name
    if same then leave (some s) else pure ⟨cells, false⟩

structure CheckedEntry where
  name : Cells UInt8
  type : VfsNodeType
  size : ℕ

structure CheckedListing where
  buffer : NameBuffer := {}
  entries : List CheckedEntry := []

def listStepChecked (d : Disk) (maxEntries : ℕ) (st : CheckedListing) (s : Slot) :
    Access CheckedListing CheckedListing :=
  if maxEntries ≤ st.entries.length then pure st
  else if entryAt d s 0 = 0 then leave st
  else if entryAt d s 0 = 0xE5 then pure { st with buffer := { st.buffer with active := false } }
  else if (entryAt d s).attr = 0x0F then do
    let b ← storeChars listMark st.buffer (entryAt d s)
    pure { st with buffer := b }
  else do
    let (name, cells) ← listName st.buffer (entryAt d s)
    pure {
      buffer := ⟨cells, false⟩
      entries := st.entries ++ [{
        name := name
        type := if (entryAt d s).isDirectory then .directory else .file
        size := (entryAt d s).fileSize }] }

namespace Fat32Mount
variable (m : Fat32Mount) (d : Disk)

def findChecked (n cluster : ℕ) (name : Bytes) :
    Option (Access (Option Slot) NameBuffer) :=
  walk (fun _ => m.readFatEntry d) fat32IsEndOfChain
    (fun b c => (m.slots c).foldlM (findStepChecked d name) b) n cluster {}

def listChecked (n cluster maxEntries : ℕ) :
    Option (Access CheckedListing CheckedListing) :=
  walk (fun _ => m.readFatEntry d) fat32IsEndOfChain
    (fun st c => if maxEntries ≤ st.entries.length then leave st
      else (m.slots c).foldlM (listStepChecked d maxEntries) st) n cluster {}

end Fat32Mount

/-- The letters from position `i` on, at most `n`. -/
def textFrom (b : Cells UInt8) : ℕ → ℕ → Bytes
  | 0, _ => []
  | n + 1, i =>
    match b i with
    | some c => if IsLetter c then c :: textFrom b n (i + 1) else []
    | none => []

namespace NameBuffer

def text (b : NameBuffer) : Bytes := textFrom b.cells 255 0

def store (b : NameBuffer) (e : DirEntry) : NameBuffer :=
  if 0 < e.order ∧ e.order ≤ 20 then
    let cells := overwritten b.cells ((e.order - 1) * 13) e.longNameChars
    ⟨if e 0 &&& 0x40 ≠ 0 then Function.update cells (e.order * 13) (some 0) else cells, true⟩
  else b

def clear (b : NameBuffer) : NameBuffer :=
  ⟨if b.active then Function.update b.cells b.text.length (some 0) else b.cells, false⟩

/-- The array after an entry, if nothing goes wrong. -/
def feed (b : NameBuffer) (e : DirEntry) : NameBuffer :=
  if e 0 = 0xE5 then { b with active := false }
  else if e.attr = 0x0F then b.store e
  else b.clear

/-- A long-name entry has an order number other than 20, and the end of a name that is used has been
supplied. -/
def Allows (b : NameBuffer) (e : DirEntry) : Prop :=
  e 0 ≠ 0xE5 →
    if e.attr = 0x0F then e.order ≠ 20
    else b.active = true → (b.cells b.text.length).isSome = true

/-- Nothing but zeros behind the characters of the order numbers up to 19. -/
def Short (b : NameBuffer) : Prop := ∀ i, 247 ≤ i → ∀ c, b.cells i = some c → c = 0

/-- The array that starts with zeros has the same contents where something was written. -/
def Agrees (b : NameBuffer) (ln : LongName) : Prop :=
  b.active = ln.active ∧ ∀ i c, b.cells i = some c → ln.buf i = c

end NameBuffer

/-- Up to the end mark, every entry is allowed after the ones before it. -/
def Supplied : NameBuffer → List DirEntry → Prop
  | _, [] => True
  | b, e :: es => e 0 = 0 ∨ b.Allows e ∧ Supplied (b.feed e) es

section Text
variable {b : Cells UInt8} {n i : ℕ}

theorem textFrom_of_letter {c : UInt8} (hi : b i = some c) (hc : IsLetter c) :
    textFrom b (n + 1) i = c :: textFrom b n (i + 1) := by
  rw [textFrom, hi]
  exact if_pos hc

theorem textFrom_of_end (h : ¬ ∃ c, b i = some c ∧ IsLetter c) : textFrom b (n + 1) i = [] := by
  rw [textFrom]
  cases hi : b i with
  | none => rfl
  | some c => exact if_neg fun hc => h ⟨c, hi, hc⟩

theorem getElem?_textFrom {j : ℕ} (hj : j < (textFrom b n i).length) :
    b (i + j) = (textFrom b n i)[j]? := by
  induction n generalizing i j with
  | zero => cases hj
  | succ n ih =>
    by_cases hletter : ∃ c, b i = some c ∧ IsLetter c
    · obtain ⟨c, hi, hc⟩ := hletter
      rw [textFrom_of_letter hi hc] at hj ⊢
      cases j with
      | zero => exact hi
      | succ j =>
        rw [getElem?_cons_succ, ← ih (by simpa using hj), Nat.add_right_comm]
        rfl
    · rw [textFrom_of_end hletter] at hj
      cases hj

theorem isLetter_of_mem_textFrom {c : UInt8} (h : c ∈ textFrom b n i) : IsLetter c := by
  induction n generalizing i with
  | zero => cases h
  | succ n ih =>
    by_cases hletter : ∃ c, b i = some c ∧ IsLetter c
    · obtain ⟨a, hi, ha⟩ := hletter
      rw [textFrom_of_letter hi ha] at h
      rcases mem_cons.mp h with rfl | h
      · exact ha
      · exact ih h
    · rw [textFrom_of_end hletter] at h
      cases h

theorem nameEnd_eq {ε : Type} (hn : i + n ≤ 256)
    (hend : (textFrom b n i).length = n ∨ (b (i + (textFrom b n i).length)).isSome = true) :
    (nameEnd b n i : Access ε ℕ) = .ok (i + (textFrom b n i).length) := by
  induction n generalizing i with
  | zero => rfl
  | succ n ih =>
    rw [nameEnd]
    by_cases hletter : ∃ c, b i = some c ∧ IsLetter c
    · obtain ⟨c, hi, hc⟩ := hletter
      rw [textFrom_of_letter hi hc, length_cons] at hend ⊢
      rw [load_of_some (by omega) hi]
      change (if IsLetter c then nameEnd b n (i + 1) else pure i) = _
      rw [if_pos hc, ih (by omega), Nat.add_right_comm, Nat.add_assoc]
      exact hend.imp Nat.succ.inj fun h => by rwa [Nat.add_right_comm, Nat.add_assoc]
    · rw [textFrom_of_end hletter] at hend ⊢
      obtain ⟨c, hc⟩ : ∃ c, b i = some c :=
        Option.isSome_iff_exists.mp (hend.resolve_left (by simp))
      rw [load_of_some (by omega) hc]
      exact if_neg fun hl => hletter ⟨c, hc, hl⟩

theorem nameEnd_fault {ε : Type} (hlt : (textFrom b n i).length < n)
    (hend : b (i + (textFrom b n i).length) = none) : (nameEnd b n i : Access ε ℕ) = fault := by
  induction n generalizing i with
  | zero => cases hlt
  | succ n ih =>
    rw [nameEnd]
    by_cases hletter : ∃ c, b i = some c ∧ IsLetter c
    · obtain ⟨c, hi, hc⟩ := hletter
      rw [textFrom_of_letter hi hc, length_cons] at hend hlt
      unfold load
      rw [hi]
      split_ifs
      · change (if IsLetter c then nameEnd b n (i + 1) else pure i) = _
        rw [if_pos hc]
        refine ih (by omega) ?_
        rwa [Nat.add_right_comm, Nat.add_assoc]
      · rfl
    · rw [textFrom_of_end hletter] at hend
      rw [load_of_none (show b i = none from hend)]
      rfl

theorem takeWhile_of_agrees {buf : ℕ → UInt8} (h : ∀ j c, b j = some c → buf j = c)
    (hend : (textFrom b n i).length = n ∨ (b (i + (textFrom b n i).length)).isSome = true) :
    ((List.range' i n).map buf).takeWhile (fun c => c ≠ 0 ∧ c ≠ 0xFF) = textFrom b n i := by
  induction n generalizing i with
  | zero => rfl
  | succ n ih =>
    rw [List.range'_succ, map_cons]
    by_cases hletter : ∃ c, b i = some c ∧ IsLetter c
    · obtain ⟨c, hi, hc⟩ := hletter
      rw [textFrom_of_letter hi hc, length_cons] at hend
      rw [textFrom_of_letter hi hc, h i c hi,
        takeWhile_cons_of_pos (by simpa [IsLetter] using hc), ih]
      exact hend.imp Nat.succ.inj fun h => by rwa [Nat.add_right_comm, Nat.add_assoc]
    · rw [textFrom_of_end hletter] at hend
      obtain ⟨c, hc⟩ : ∃ c, b i = some c :=
        Option.isSome_iff_exists.mp (hend.resolve_left (by simp))
      have hno : ¬ IsLetter c := fun hl => hletter ⟨c, hc, hl⟩
      rw [textFrom_of_end hletter, h i c hc, takeWhile_cons_of_neg (by simpa [IsLetter] using hno)]

end Text
end SageOS
