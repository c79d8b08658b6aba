import SageOS.ArenaBlocks
import SageOS.OpenContract
import SageOS.VforkImage

/-!
# A program that cannot be loaded

Before the file is validated, `sys_execve` saves the image of the parent and records the span of
the file in the task, and every segment is copied before the next one is checked. A call that fails
after the file was read leaves these changes behind. The memory here is the one outside the arena,
which holds the buffer of the file and the saved image.
-/
namespace SageOS
open Kernel
namespace Elf
section Stack
variable {a b : Arena} {ptr argc envc : ℕ}

theorem allocStack_of_false (h : (allocStack a argc envc).1 = false) :
    (allocStack a argc envc).2 = (a.requested ((argc + 1) * 8)).requested ((envc + 1) * 8) := by
  unfold allocStack at h ⊢
  dsimp only at h ⊢
  split at h
  next => rfl
  next => cases h

/-- Without a stack block the pointer arrays are not given back. -/
theorem sameLive_allocStack_iff (h : Arena.Grown b ptr a) (hargc : argc < 2 ^ 31)
    (henvc : envc < 2 ^ 31) (hno : (allocStack a argc envc).1 = false) :
    Arena.SameLive b ((allocStack a argc envc).2.sageFree ptr) ↔
      a.sageMalloc ((argc + 1) * 8) = none ∧ a.sageMalloc ((envc + 1) * 8) = none := by
  rw [allocStack_of_false hno]
  obtain ⟨htidy, hext, hnew⟩ := h.tidy.requested (show (argc + 1) * 8 < 2 ^ 62 by omega)
  obtain ⟨-, hext', hnew'⟩ := htidy.requested (show (envc + 1) * 8 < 2 ^ 62 by omega)
  have hkept : a.sageMalloc ((argc + 1) * 8) = none → a.requested ((argc + 1) * 8) = a := by
    intro hargv
    rw [Arena.requested, hargv]
    rfl
  constructor
  · intro hsame
    have hargv : a.sageMalloc ((argc + 1) * 8) = none := by
      by_contra hne
      obtain ⟨x, hx, hx'⟩ := hnew hne
      exact h.not_sameLive (hext.trans hext') hx (hext' x hx').1 hsame
    rw [hkept hargv] at hsame hext' hnew'
    refine ⟨hargv, ?_⟩
    by_contra hne
    obtain ⟨x, hx, hx'⟩ := hnew' hne
    exact h.not_sameLive hext' hx hx' hsame
  · rintro ⟨hargv, henvp⟩
    rw [hkept hargv, Arena.requested, henvp]
    exact h.sameLive

end Stack

variable (data : Bytes)

/-- The byte that a segment has for an address. -/
def segmentByte (i a : ℕ) : Option UInt8 :=
  let j := offsetFrom (phdr data i).vaddr a
  if (phdr data i).type ≠ 1 then none
  else if j < segmentFilesz data i then some (data.getD (segmentOffset data i + j) 0)
  else if j < (phdr data i).memsz then some 0
  else none

/-- The byte that the segments from number `i` on have for an address, up to a refused one; the
last of them counts. -/
def imageByte : ℕ → ℕ → ℕ → Option UInt8
  | 0, _, _ => none
  | n + 1, i, a =>
    if Refused data i then none else (imageByte n (i + 1) a).or (segmentByte data i a)

theorem loadSegments_eq (n i : ℕ) (mem : ℕ → UInt8) (a : ℕ) :
    loadSegments data n i mem a = (imageByte data n i a).getD (mem a) := by
  induction n generalizing i mem with
  | zero => rfl
  | succ n ih =>
    rw [loadSegments, imageByte]
    by_cases hr : Refused data i
    · rw [if_pos hr, if_pos hr]
      rfl
    · have hseg : loadSegment data i mem a = (segmentByte data i a).getD (mem a) := by
        unfold loadSegment segmentByte
        split_ifs with htype <;> simp_all
        split_ifs <;> rfl
      rw [if_neg hr, if_neg hr, ih, hseg]
      cases imageByte data n (i + 1) a <;> rfl

end Elf

namespace Sys
variable {σ : Type} (v : Vfs σ) (s : Sys σ)

/-- The memory after `sys_execve`, which copies segments when the file is read and valid. -/
def execveMem (mem : ℕ → UInt8) (machine : ℕ) (path : Bytes) (st : VfsStat) : ℕ → UInt8 :=
  let data := (s.imageOf v path st).2.1
  if (s.statOf v path st).1 < 0 ∨ (s.imageBuffer v path st).isNone ∨ ¬ s.imageRead v path st ∨
    ¬ Elf.elfValidate machine data then mem
  else Elf.loadSegments data (Elf.phnum data) 0 mem

/-- What a failed call must leave as it was: the bounds of the caller, the saved image of its
parent, the memory of its own image and the blocks in use. -/
structure Unchanged (s' : Sys σ) (mem mem' : ℕ → UInt8) : Prop where
  bounds : Shared.bounds (s'.kernel.tasks s.kernel.current) = Shared.bounds s.task
  parent : ∀ p, s.task.parent = some p →
    (s'.kernel.tasks p).savedElfData = (s.kernel.tasks p).savedElfData
  image : ∀ addr, Shared.InImage s.task addr → mem' addr = mem addr
  live : s.kernel.arena.SameLive s'.kernel.arena

/-- A file that was read, with its buffer taken from the arena `a`, has nothing to change: the
caller has its span and an empty heap, there is nothing to save for the parent or no room for it,
the segments have the bytes that are there, and if all are accepted then there is no room for the
pointer arrays. -/
structure Idle (mem : ℕ → UInt8) (a : Arena) (machine : ℕ) (data : Bytes) (argc envc : ℕ) :
    Prop where
  span : Shared.bounds s.task = Shared.bounds (Elf.recordSpan data {})
  parent : ∀ p, s.task.parent = some p → 0 < (s.kernel.tasks p).elfSize →
    (s.kernel.tasks p).savedElfData = none → a.sageMalloc (s.kernel.tasks p).elfSize = none
  bytes : Elf.elfValidate machine data → ∀ addr, Shared.InImage s.task addr →
    ∀ b, Elf.imageByte data (Elf.phnum data) 0 addr = some b → mem addr = b
  room : Elf.elfValidate machine data → (∀ p ∈ Elf.loads data, Elf.inRange p) →
    a.sageMalloc ((argc + 1) * 8) = none ∧ a.sageMalloc ((envc + 1) * 8) = none

section Failure
variable {v s} {mem : ℕ → UInt8} {machine : ℕ} {path : CStr} {argc envc : ℕ} {st : VfsStat}

/-- The parent is as before exactly if nothing was saved. -/
theorem savedElfData_saveParentImage {k : Kernel} {i p : ℕ} (hp : (k.tasks i).parent = some p) :
    ((Elf.saveParentImage k i).tasks p).savedElfData = (k.tasks p).savedElfData ↔
      (0 < (k.tasks p).elfSize → (k.tasks p).savedElfData = none →
        k.arena.sageMalloc (k.tasks p).elfSize = none) := by
  unfold Elf.saveParentImage
  rw [hp]
  dsimp only
  by_cases hsave : 0 < (k.tasks p).elfSize ∧ (k.tasks p).savedElfData = none
  · cases hm : k.arena.sageMalloc (k.tasks p).elfSize with
    | none => simp
    | some r => simp [modifyTask, hsave.1, hsave.2]
  · rw [if_neg hsave]
    exact iff_of_true rfl fun hpos hnone => absurd ⟨hpos, hnone⟩ hsave

theorem saveParentImage_eq_self {k : Kernel} {i : ℕ}
    (h : ∀ p, (k.tasks i).parent = some p → 0 < (k.tasks p).elfSize →
      (k.tasks p).savedElfData = none → k.arena.sageMalloc (k.tasks p).elfSize = none) :
    Elf.saveParentImage k i = k := by
  unfold Elf.saveParentImage
  cases hp : (k.tasks i).parent with
  | none => rfl
  | some p =>
    dsimp only
    split_ifs with hsave
    · rw [h p hp hsave.1 hsave.2]
    · rfl

/-- The load of a file that was read into the block at `ptr`. -/
theorem unchanged_iff_of_read {a : Arena} {ptr : ℕ} {data : Bytes} {vfs : VfsState σ}
    (hg : Arena.Grown s.kernel.arena ptr a) (hargc : argc < 2 ^ 31) (henvc : envc < 2 ^ 31)
    (hret : (Elf.elfExec machine data argc envc
      (Elf.saveParentImage { s.kernel with arena := a } s.kernel.current).arena).1 ≠ none) :
    let k := Elf.saveParentImage { s.kernel with arena := a } s.kernel.current
    s.Unchanged { s with
        vfs := vfs
        kernel := { k.modifyTask s.kernel.current (Elf.recordSpan data) with
          arena := (Elf.elfExec machine data argc envc k.arena).2.sageFree ptr } }
      mem (if ¬ Elf.elfValidate machine data then mem
        else Elf.loadSegments data (Elf.phnum data) 0 mem) ↔
      s.Idle mem a machine data argc envc := by
  intro k
  have hsaved : ∀ p, ((k.modifyTask s.kernel.current (Elf.recordSpan data)).tasks p).savedElfData =
      (k.tasks p).savedElfData := by
    intro p
    by_cases hp : p = s.kernel.current
    · subst hp
      rw [modifyTask, setTask_self]
      rfl
    · rw [modifyTask, setTask_of_ne _ hp]
  have hparent : ∀ p, s.task.parent = some p → ((k.tasks p).savedElfData =
      (s.kernel.tasks p).savedElfData ↔ (0 < (s.kernel.tasks p).elfSize →
        (s.kernel.tasks p).savedElfData = none → a.sageMalloc (s.kernel.tasks p).elfSize = none)) :=
    fun p hp => savedElfData_saveParentImage (k := { s.kernel with arena := a }) hp
  have hbounds : Shared.bounds ((k.modifyTask s.kernel.current (Elf.recordSpan data)).tasks
      s.kernel.current) = Shared.bounds (Elf.recordSpan data {}) := by
    rw [modifyTask, setTask_self]
    rfl
  have hbytes : (∀ addr, Shared.InImage s.task addr → (if ¬ Elf.elfValidate machine data then mem
      else Elf.loadSegments data (Elf.phnum data) 0 mem) addr = mem addr) ↔
      (Elf.elfValidate machine data → ∀ addr, Shared.InImage s.task addr →
        ∀ b, Elf.imageByte data (Elf.phnum data) 0 addr = some b → mem addr = b) := by
    by_cases hv : Elf.elfValidate machine data
    · simp only [hv, not_true, if_false, true_imp_iff, Elf.loadSegments_eq]
      refine forall₂_congr fun addr _ => ?_
      cases Elf.imageByte data (Elf.phnum data) 0 addr <;> simp [eq_comm]
    · simp [hv]
  -- Nothing was saved, so the loader works on the arena with the buffer.
  have hlive (hk : k = { s.kernel with arena := a }) : s.kernel.arena.SameLive
      ((Elf.elfExec machine data argc envc k.arena).2.sageFree ptr) ↔
      (Elf.elfValidate machine data → (∀ p ∈ Elf.loads data, Elf.inRange p) →
        a.sageMalloc ((argc + 1) * 8) = none ∧ a.sageMalloc ((envc + 1) * 8) = none) := by
    change (Elf.elfExec machine data argc envc k.arena).1 ≠ none at hret
    rw [hk] at hret ⊢
    unfold Elf.elfExec at hret ⊢
    split_ifs at hret ⊢ with hrefused
    · exact iff_of_true hg.sameLive fun hv hin => absurd hrefused (by simp [hv]; exact hin)
    · rw [not_or, not_not, not_not] at hrefused
      simp only [hrefused.1, true_imp_iff, imp_iff_right hrefused.2]
      apply Elf.sameLive_allocStack_iff hg hargc henvc
      by_contra hne
      simp [hne] at hret
  constructor
  · intro h
    have hp := fun p hp => (hparent p hp).mp ((hsaved p).symm.trans (h.parent p hp))
    exact ⟨h.bounds.symm.trans hbounds, hp, hbytes.mp h.image,
      (hlive (saveParentImage_eq_self hp)).mp h.live⟩
  · intro h
    exact ⟨hbounds.trans h.span.symm, fun p hp =>
      (hsaved p).trans ((hparent p hp).mpr (h.parent p hp)), hbytes.mpr h.bytes,
      (hlive (saveParentImage_eq_self h.parent)).mpr h.room⟩

end Failure

/-- A call that returns leaves everything as it was exactly if the file was not read, or if there
was nothing to change. -/
theorem failed_execve_unchanged_iff (mem : ℕ → UInt8) (machine : ℕ) (path : CStr) (argc envc : ℕ)
    (st : VfsStat) (htidy : s.kernel.arena.Tidy)
    (hsize : (s.statOf v path.chars st).2.1.size < 2 ^ 62) (hargc : argc < 2 ^ 31)
    (henvc : envc < 2 ^ 31) (hret : (s.sysExecve v machine path argc envc st).1 ≠ none) :
    s.Unchanged (s.sysExecve v machine path argc envc st).2 mem
        (s.execveMem v mem machine path.chars st) ↔
      ∀ ptr a, 0 ≤ (s.statOf v path.chars st).1 →
        s.imageBuffer v path.chars st = some (ptr, a) → s.imageRead v path.chars st →
          s.Idle mem a machine (s.imageOf v path.chars st).2.1 argc envc := by
  unfold execveMem
  by_cases hstat : (s.statOf v path.chars st).1 < 0
  · rw [s.sysExecve_of_missing v hstat, if_pos (.inl hstat)]
    exact iff_of_true ⟨rfl, fun _ _ => rfl, fun _ _ => rfl, fun _ => .rfl, fun _ _ => rfl⟩
      fun _ _ h => absurd hstat (not_lt.mpr h)
  cases hbuf : s.imageBuffer v path.chars st with
  | none =>
    rw [s.sysExecve_of_no_buffer v hstat hbuf, if_pos (.inr (.inl rfl))]
    exact iff_of_true ⟨rfl, fun _ _ => rfl, fun _ _ => rfl, fun _ => .rfl, fun _ _ => rfl⟩ nofun
  | some r =>
    obtain ⟨ptr, a⟩ := r
    have hg := htidy.grown hsize hbuf
    rw [s.sysExecve_of_buffer v hstat hbuf] at hret ⊢
    by_cases hread : s.imageRead v path.chars st
    · rw [if_pos hread] at hret ⊢
      have hsome := Option.isSome_iff_ne_none.mpr hret
      simp only [hstat, hread, hsome, Option.isNone_some, not_true, false_or, if_true,
        Bool.false_eq_true]
      refine (unchanged_iff_of_read hg hargc henvc hret).trans ⟨?_, fun h => ?_⟩
      · rintro h _ _ - ⟨⟩ -
        exact h
      · exact h ptr a (not_lt.mp hstat) rfl trivial
    · rw [if_neg hread, if_pos (.inr (.inr (.inl hread)))]
      exact iff_of_true ⟨rfl, fun _ _ => rfl, fun _ _ => rfl, hg.sameLive⟩
        fun _ _ _ _ h => absurd h hread

/-- A file system with one file of 64 zeros. -/
def zerosVfs : Vfs Unit where
  mounts := [⟨bytes "/", {
    stat := some fun _ out fs => (0, { out with size := 64 }, fs)
    read := some fun _ _ _ _ fs => (64, List.replicate 64 0, fs) }, true⟩]
  bridge := none

def loadedSys : Sys Unit := ⟨Shared.parentWithHeap.kernel, ⟨(), []⟩, []⟩

/-- The same file when only half of it can be read. -/
def halfVfs : Vfs Unit where
  mounts := [⟨bytes "/", {
    stat := some fun _ out fs => (0, { out with size := 64 }, fs)
    read := some fun _ _ _ _ fs => (32, List.replicate 32 0, fs) }, true⟩]
  bridge := none

theorem execve_of_half_read :
    loadedSys.Unchanged (loadedSys.sysExecve halfVfs 62 pathF 0 0 {}).2 (fun _ => 0)
      (loadedSys.execveMem halfVfs (fun _ => 0) 62 pathF.chars {}) :=
  (failed_execve_unchanged_iff halfVfs loadedSys (fun _ => 0) 62 pathF 0 0 {} Arena.tidy_empty
    (by decide) (by decide) (by decide) (by decide)).mpr
    fun _ _ _ _ h => absurd h (by decide)

/-- The file is refused, and the caller has lost its image and its heap. -/
theorem execve_of_zeros :
    let r := loadedSys.sysExecve zerosVfs 62 pathF 0 0 {}
    r.1 = some (-1) ∧ Shared.bounds (r.2.kernel.tasks 0) = (2 ^ 64 - 1, 1, 0, 0, 2 ^ 26) ∧
      ¬ loadedSys.Unchanged r.2 (fun _ => 0)
        (loadedSys.execveMem zerosVfs (fun _ => 0) 62 pathF.chars {}) := by
  refine ⟨by decide, by decide, fun h => ?_⟩
  exact absurd h.bounds (by decide)

end Sys
end SageOS
