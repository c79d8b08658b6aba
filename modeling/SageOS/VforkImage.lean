import SageOS.GuardedRun
import SageOS.SharedMemory

/-!
# The image of a parent during vfork

When a child of `vfork` calls `execve`, only the bytes from `elf_base` on that its parent was loaded
with are saved, not the heap of the parent. So the memory of the parent comes back at the exit of
the child when everything that is written in between stays off its heap and off the buffer.
-/
namespace SageOS
open Kernel GuardedRun Function Elf
namespace Shared

/-- The memory of a task, from its image to the end of its heap. -/
def Owns (t : Thread) (a : ℕ) : Prop := t.elfBase ≤ a ∧ a < t.heapEnd ∧ a < 2 ^ 64

/-- The part that is saved. -/
def InImage (t : Thread) (a : ℕ) : Prop := offsetFrom t.elfBase a < t.elfSize

def InBuffer (heap : ℕ) (t : Thread) (a : ℕ) : Prop :=
  ∃ ptr, t.savedElfData = some ptr ∧ offsetFrom (heap + ptr) a < t.elfSize

/-- A byte may be written: it belongs to the parent only where the image is saved, and it is not in
the buffer. -/
def Spares (heap : ℕ) (t : Thread) (a : ℕ) : Prop :=
  (Owns t a → InImage t a ∧ t.savedElfData.isSome) ∧ ¬ InBuffer heap t a

/-- The state in which a program is loaded, after the image of the parent was saved. -/
def beforeLoad (heap : ℕ) (m : Shared) (data : Bytes) : Shared :=
  (m.kernel.arena.sageMalloc data.length).elim m fun r =>
    saveImage heap { m with kernel := { m.kernel with arena := r.2 } }

/-- What the steps of a child must respect of its parent `p`. -/
def Respects (heap p : ℕ) (m : Shared) : ChildStep → Prop
  | .execve machine data _ _ =>
    let t := (m.beforeLoad heap data).kernel.tasks p
    (∀ a, Elf.LoadsAt data machine a → Spares heap t a) ∧
      ∀ a, Owns (m.kernel.tasks p) a → InBuffer heap t a → InImage (m.kernel.tasks p) a
  | .brk _ => True
  | .write addr _ => Spares heap (m.kernel.tasks p) addr

def bounds (t : Thread) : ℕ × ℕ × ℕ × ℕ × ℕ :=
  (t.elfBase, t.elfSize, t.heapBase, t.heapEnd, t.heapLimit)

def SameImage (p : ℕ) (m₀ m : Shared) : Prop :=
  bounds (m.kernel.tasks p) = bounds (m₀.kernel.tasks p) ∧
    ∀ a, Owns (m₀.kernel.tasks p) a → m.mem a = m₀.mem a

/-- What holds between the vfork of task `p` in state `m₀` and the exit of its child `c`. -/
structure Kept (heap p c : ℕ) (m₀ m : Shared) : Prop where
  current : m.kernel.current = c
  other : c ≠ p
  parent : (m.kernel.tasks c).parent = some p
  bounds : bounds (m.kernel.tasks p) = Shared.bounds (m₀.kernel.tasks p)
  rest : ∀ a, Owns (m₀.kernel.tasks p) a →
    ¬ InImage (m₀.kernel.tasks p) a ∨ (m.kernel.tasks p).savedElfData = none → m.mem a = m₀.mem a
  saved : ∀ ptr, (m.kernel.tasks p).savedElfData = some ptr → ∀ a, Owns (m₀.kernel.tasks p) a →
    InImage (m₀.kernel.tasks p) a →
      m.mem ((heap + ptr + offsetFrom (m₀.kernel.tasks p).elfBase a) % 2 ^ 64) = m₀.mem a

section Bounds
variable {t t' : Thread}

theorem owns_congr (h : bounds t = bounds t') (a : ℕ) : Owns t a ↔ Owns t' a := by
  simp only [bounds, Prod.mk.injEq] at h
  unfold Owns
  rw [h.1, h.2.2.2.1]

theorem inImage_congr (h : bounds t = bounds t') (a : ℕ) : InImage t a ↔ InImage t' a := by
  simp only [bounds, Prod.mk.injEq] at h
  unfold InImage
  rw [h.1, h.2.1]

theorem elfSize_congr (h : bounds t = bounds t') : t.elfSize = t'.elfSize := by
  simp only [bounds, Prod.mk.injEq] at h
  exact h.2.1

end Bounds

namespace Kept
variable {heap p c : ℕ} {m₀ m : Shared}
section
variable (h : Kept heap p c m₀ m)

include h

theorem kernel {k : Kernel} (hcur : k.current = c)
    (hparent : (k.tasks c).parent = some p) (hp : k.tasks p = m.kernel.tasks p) :
    Kept heap p c m₀ { m with kernel := k } where
  current := hcur
  other := h.other
  parent := hparent
  bounds := by
    change Shared.bounds (k.tasks p) = _
    rw [hp]
    exact h.bounds
  rest a ha hor := by
    change _ ∨ (k.tasks p).savedElfData = none at hor
    rw [hp] at hor
    exact h.rest a ha hor
  saved ptr hptr := by
    change (k.tasks p).savedElfData = some ptr at hptr
    rw [hp] at hptr
    exact h.saved ptr hptr

theorem memory {mem : ℕ → UInt8}
    (hmem : ∀ a, ¬ Spares heap (m.kernel.tasks p) a → mem a = m.mem a) :
    Kept heap p c m₀ { m with mem := mem } where
  current := h.current
  other := h.other
  parent := h.parent
  bounds := h.bounds
  rest a ha hor := by
    change mem a = _
    rw [hmem a, h.rest a ha hor]
    intro hs
    obtain ⟨himage, hsome⟩ := hs.1 ((owns_congr h.bounds a).mpr ha)
    rcases hor with hout | hnone
    · exact hout ((inImage_congr h.bounds a).mp himage)
    · rw [show (m.kernel.tasks p).savedElfData = none from hnone] at hsome
      cases hsome
  saved ptr hptr a ha himage := by
    change mem _ = _
    rw [hmem, h.saved ptr hptr a ha himage]
    intro hs
    apply hs.2
    refine ⟨ptr, hptr, ?_⟩
    rw [offsetFrom_add _ (offsetFrom_lt _ _), elfSize_congr h.bounds]
    exact himage

theorem brk (addr : ℕ) : Kept heap p c m₀ (m.brk addr) := by
  unfold Shared.brk
  dsimp only
  split_ifs
  · exact h
  · apply h.kernel
    · exact h.current
    · simp [modifyTask, setTask, h.current, h.parent]
    · simp [modifyTask, setTask, h.current, h.other.symm]

theorem write {addr : ℕ} (ha : Spares heap (m.kernel.tasks p) addr)
    (value : UInt8) : Kept heap p c m₀ (m.write addr value) := by
  apply h.memory
  intro a hs
  rw [update_of_ne]
  rintro rfl
  exact hs ha

theorem saveImage (hbuffer : ∀ a, Owns (m₀.kernel.tasks p) a →
      InBuffer heap ((m.saveImage heap).kernel.tasks p) a → InImage (m₀.kernel.tasks p) a) :
    Kept heap p c m₀ (m.saveImage heap) := by
  have hparent : (m.kernel.tasks m.kernel.current).parent = some p := by
    rw [h.current]
    exact h.parent
  unfold Shared.saveImage saveParentImage at hbuffer ⊢
  rw [hparent] at hbuffer ⊢
  dsimp only at hbuffer ⊢
  by_cases hsave : 0 < (m.kernel.tasks p).elfSize ∧ (m.kernel.tasks p).savedElfData = none
  · rw [if_pos hsave] at hbuffer ⊢
    rw [if_pos hsave]
    cases hm : m.kernel.arena.sageMalloc (m.kernel.tasks p).elfSize with
    | none => exact h
    | some r =>
      obtain ⟨ptr, arena⟩ := r
      rw [hm] at hbuffer
      dsimp only at hbuffer ⊢
      have hsize := elfSize_congr h.bounds
      refine ⟨h.current, h.other, ?_, ?_, fun a ha hor => ?_, fun ptr' hptr a ha himage => ?_⟩
      · simp [modifyTask, setTask, h.other, h.parent]
      · simp only [modifyTask, setTask_self]
        exact h.bounds
      · have hnot : ¬ offsetFrom (heap + ptr) a < (m.kernel.tasks p).elfSize := by
          intro hlt
          have himage := hbuffer a ha ⟨ptr, by simp [modifyTask], by simpa [modifyTask] using hlt⟩
          rcases hor with hout | hnone
          · exact hout himage
          · simp [modifyTask] at hnone
        change memcpy _ _ _ _ a = _
        rw [memcpy, if_neg hnot]
        exact h.rest a ha (.inr hsave.2)
      · obtain rfl : ptr = ptr' := by simpa [modifyTask] using hptr
        have hbase : (m.kernel.tasks p).elfBase = (m₀.kernel.tasks p).elfBase := by
          have hb := h.bounds
          simp only [Shared.bounds, Prod.mk.injEq] at hb
          exact hb.1
        have hin : offsetFrom (m₀.kernel.tasks p).elfBase a < (m₀.kernel.tasks p).elfSize := himage
        change memcpy _ _ _ _ _ = _
        rw [memcpy, offsetFrom_add _ (offsetFrom_lt _ _), hsize, if_pos hin, hbase,
          add_offsetFrom _ ha.2.2]
        exact h.rest a ha (.inr hsave.2)
  · rw [if_neg hsave, if_neg hsave]
    exact h

theorem execve {machine : ℕ} {data : Bytes} (hload : ∀ a, Elf.LoadsAt data machine a →
      Spares heap ((m.beforeLoad heap data).kernel.tasks p) a)
    (hbuffer : ∀ a, Owns (m.kernel.tasks p) a →
      InBuffer heap ((m.beforeLoad heap data).kernel.tasks p) a → InImage (m.kernel.tasks p) a)
    (argc envc : ℕ) : Kept heap p c m₀ (m.execve heap machine data argc envc) := by
  unfold Shared.execve
  unfold beforeLoad at hload hbuffer
  cases hm : m.kernel.arena.sageMalloc data.length with
  | none => exact h
  | some r =>
    obtain ⟨ptr, arena⟩ := r
    rw [hm] at hload hbuffer
    dsimp only [Option.elim_some] at hload hbuffer ⊢
    have harena : Kept heap p c m₀ { m with kernel := { m.kernel with arena := arena } } :=
      h.kernel h.current h.parent rfl
    have hsaved := harena.saveImage fun a ha hb =>
      (inImage_congr h.bounds a).mp (hbuffer a ((owns_congr h.bounds a).mpr ha) hb)
    generalize Shared.saveImage heap { m with kernel := { m.kernel with arena := arena } } = m₁
      at hload hsaved
    have hkernel : ∀ arena', Kept heap p c m₀ { m₁ with kernel :=
        { m₁.kernel.modifyTask m.kernel.current (recordSpan data) with arena := arena' } } := by
      intro arena'
      apply hsaved.kernel
      · exact hsaved.current
      · simp [modifyTask, setTask, h.current, recordSpan, hsaved.parent]
      · simp [modifyTask, setTask, h.current, h.other.symm]
    refine (hkernel _).memory fun a hs => ?_
    have htask : (m₁.kernel.modifyTask m.kernel.current (recordSpan data)).tasks p =
        m₁.kernel.tasks p := by
      simp [modifyTask, setTask, h.current, h.other.symm]
    change ¬ Spares heap ((m₁.kernel.modifyTask _ _).tasks p) a at hs
    rw [htask] at hs
    by_cases hv : elfValidate machine data
    · rw [if_pos hv]
      exact loadSegments_of_not_loadsAt data hv (fun hl => hs (hload a hl)) _ 0 (by omega)
        (fun j hj => absurd hj (Nat.not_lt_zero j)) _
    · rw [if_neg hv]

theorem exit_mem (code : ℤ) {a : ℕ} (ha : Owns (m₀.kernel.tasks p) a) :
    (m.exit heap code).mem a = m₀.mem a := by
  have hparent : (m.kernel.tasks m.kernel.current).parent = some p := by
    rw [h.current]
    exact h.parent
  unfold Shared.exit
  dsimp only
  rw [hparent]
  dsimp only
  cases hptr : (m.kernel.tasks p).savedElfData with
  | none => exact h.rest a ha (.inr hptr)
  | some ptr =>
    have hb := h.bounds
    simp only [Shared.bounds, Prod.mk.injEq] at hb
    dsimp only
    rw [memcpy, hb.1, hb.2.1]
    by_cases himage : offsetFrom (m₀.kernel.tasks p).elfBase a < (m₀.kernel.tasks p).elfSize
    · rw [if_pos himage]
      exact h.saved ptr hptr a ha himage
    · rw [if_neg himage]
      exact h.rest a ha (.inl himage)

end
end Kept

section Exit
variable (k : Kernel) (j : ℕ)

theorem bounds_modifyTask (i : ℕ) {f : Thread → Thread} (hf : ∀ t, bounds (f t) = bounds t) :
    bounds ((k.modifyTask i f).tasks j) = bounds (k.tasks j) := by
  by_cases hj : j = i
  · subst hj
    rw [modifyTask, setTask_self, hf]
  · rw [modifyTask, setTask_of_ne _ hj]

theorem bounds_setState (i : ℕ) (state : ThreadState) :
    bounds ((k.modifyTask i fun t => { t with state := state }).tasks j) = bounds (k.tasks j) := by
  apply bounds_modifyTask
  intro t
  rfl

theorem bounds_schedSchedule : bounds (k.schedSchedule.tasks j) = bounds (k.tasks j) := by
  unfold schedSchedule
  cases k.schedNext with
  | none => rfl
  | some n =>
    dsimp only
    split_ifs
    · rfl
    · exact (bounds_setState _ j n .running).trans (bounds_setState k j k.current .ready)
    · exact bounds_setState k j n .running

theorem bounds_wakeAll : bounds (k.wakeAll.tasks j) = bounds (k.tasks j) := by
  unfold wakeAll
  dsimp only
  split_ifs
  · rfl
  · rfl

theorem bounds_restoreParentImage (i : ℕ) :
    bounds ((k.restoreParentImage i).tasks j) = bounds (k.tasks j) := by
  unfold restoreParentImage
  cases (k.tasks i).parent with
  | none => rfl
  | some q =>
    dsimp only
    cases (k.tasks q).savedElfData with
    | none => rfl
    | some ptr =>
      dsimp only
      rw [bounds_modifyTask]
      intro t
      rfl

theorem bounds_sysExit (code : ℤ) : bounds ((k.sysExit code).tasks j) = bounds (k.tasks j) := by
  unfold sysExit schedExit
  dsimp only
  rw [bounds_schedSchedule, bounds_wakeAll, bounds_setState, bounds_restoreParentImage,
    bounds_modifyTask]
  intro t
  rfl

end Exit

theorem kept_vfork (heap : ℕ) {m₀ : Shared} {k : Kernel} {c : ℕ}
    (hrun : (m₀.kernel.tasks m₀.kernel.current).state = .running)
    (hsaved : (m₀.kernel.tasks m₀.kernel.current).savedElfData = none)
    (hvfork : m₀.kernel.sysVfork = (some c, k)) :
    Kept heap m₀.kernel.current c m₀ { m₀ with kernel := k } := by
  unfold sysVfork at hvfork
  cases hc : m₀.kernel.schedCreateThread (bytes "vfork_child")
      (m₀.kernel.tasks m₀.kernel.current).priority with
  | none => simp [hc] at hvfork
  | some r =>
    obtain ⟨c', k₁⟩ := r
    have hcr := schedCreateThread_created _ hc
    simp only [hc, Prod.mk.injEq, Option.some.injEq] at hvfork
    obtain ⟨rfl, rfl⟩ := hvfork
    have hne : m₀.kernel.current ≠ c' := by
      intro he
      rw [he] at hrun
      cases hrun.symm.trans hcr.unused
    have htask := hcr.frame _ hne
    refine ⟨rfl, hne.symm, ?_, ?_, fun a _ _ => rfl, fun ptr hptr => ?_⟩
    · simp [modifyTask, setTask, hne.symm]
    · simp only [modifyTask, setTask, update_self, update_of_ne hne, htask]
      rfl
    · simp [modifyTask, setTask, hne, htask, hsaved] at hptr

/-- Whatever programs the child loads and whatever it writes, if every step respects the parent then
the parent's memory and bounds are those of its call when the child has exited. -/
theorem parent_image_survives (heap : ℕ) (m₀ : Shared) {k : Kernel} {c : ℕ}
    (hrun : (m₀.kernel.tasks m₀.kernel.current).state = .running)
    (hsaved : (m₀.kernel.tasks m₀.kernel.current).savedElfData = none)
    (hvfork : m₀.kernel.sysVfork = (some c, k)) (steps : List ChildStep)
    (hsteps : Guarded (ChildStep.act heap) (Respects heap m₀.kernel.current)
      { m₀ with kernel := k } steps) (code : ℤ) :
    SameImage m₀.kernel.current m₀
      ((run (ChildStep.act heap) { m₀ with kernel := k } steps).exit heap code) := by
  have hstep : ∀ m e, Kept heap m₀.kernel.current c m₀ m → Respects heap m₀.kernel.current m e →
      Kept heap m₀.kernel.current c m₀ (ChildStep.act heap m e) := by
    intro m e hm he
    cases e with
    | execve machine data argc envc => exact hm.execve he.1 he.2 argc envc
    | brk addr => exact hm.brk addr
    | write addr value => exact hm.write he value
  have hkept := invariant_run hstep (kept_vfork heap hrun hsaved hvfork) hsteps
  exact ⟨(bounds_sysExit _ _ code).trans hkept.bounds, fun a ha => hkept.exit_mem code ha⟩

/-- An executable that loads one page at 0x400000. -/
def onePage : Bytes :=
  Elf.header 64 ++ [1, 0, 0, 0, 0, 0, 0, 0] ++ List.replicate 8 0 ++ [0, 0, 0x40, 0, 0, 0, 0, 0] ++
    List.replicate 16 0 ++ [0, 0x10, 0, 0, 0, 0, 0, 0] ++ List.replicate 8 0

/-- A parent with one page of image at 0x400000 and one page of heap behind it. -/
def parentWithHeap : Shared where
  kernel := Kernel.boot.modifyTask 0 fun t =>
    { t with
      elfBase := 0x400000
      elfSize := 0x1000
      heapBase := 0x401000
      heapEnd := 0x402000
      heapLimit := 0x4401000 }
  mem := fun _ => 0

def childOfParent : Shared := { parentWithHeap with kernel := parentWithHeap.kernel.sysVfork.2 }

theorem onePage_over_parent : (Elf.phnum onePage = 1 ∧ (Elf.phdr onePage 0).vaddr = 0x400000 ∧
      (Elf.phdr onePage 0).memsz = 0x1000 ∧ Elf.segmentFilesz onePage 0 = 0) ∧
    let t := (childOfParent.beforeLoad 0x1000000 onePage).kernel.tasks 0
    t.elfBase = 0x400000 ∧ t.elfSize = 0x1000 ∧ t.heapEnd = 0x402000 ∧
      t.savedElfData = some 65712 := by
  decide +kernel

theorem respects_onePage : Respects 0x1000000 0 childOfParent (.execve 62 onePage 0 0) := by
  obtain ⟨⟨hnum, hvaddr, hmemsz, hfilesz⟩, hbase, hsize, hend, hsaved⟩ := onePage_over_parent
  have hbuffer : ∀ a, InBuffer 0x1000000
      ((childOfParent.beforeLoad 0x1000000 onePage).kernel.tasks 0) a →
        offsetFrom (0x1000000 + 65712) a < 0x1000 := by
    rintro a ⟨ptr, hptr, hlt⟩
    rw [hsaved] at hptr
    cases hptr
    rw [hsize] at hlt
    exact hlt
  refine ⟨fun a hload => ?_, fun a howns hb => ?_⟩
  · obtain ⟨-, i, hi, -, -, hcov⟩ := hload
    obtain rfl : i = 0 := by omega
    rw [hvaddr, hmemsz, hfilesz] at hcov
    refine ⟨fun _ => ⟨?_, by rw [hsaved]; rfl⟩, fun hb => ?_⟩
    · unfold InImage
      rw [hbase, hsize]
      exact hcov
    · have hlt := hbuffer a hb
      unfold offsetFrom at hlt hcov
      omega
  · have hlt := hbuffer a hb
    have hend' : (childOfParent.kernel.tasks 0).heapEnd = 0x402000 := by decide
    have ha := howns.2.1
    rw [hend'] at ha
    unfold offsetFrom at hlt
    omega

theorem parent_survives_onePage :
    Guarded (ChildStep.act 0x1000000) (Respects 0x1000000 0) childOfParent
      [.execve 62 onePage 0 0] ∧
    SameImage 0 parentWithHeap ((run (ChildStep.act 0x1000000) childOfParent
      [.execve 62 onePage 0 0]).exit 0x1000000 0) := by
  have hsteps : Guarded (ChildStep.act 0x1000000) (Respects 0x1000000 0) childOfParent
      [.execve 62 onePage 0 0] := ⟨respects_onePage, trivial⟩
  have hvfork : parentWithHeap.kernel.sysVfork = (some 1, parentWithHeap.kernel.sysVfork.2) :=
    Prod.ext (by decide) rfl
  exact ⟨hsteps, parent_image_survives 0x1000000 parentWithHeap (by decide)
    (by decide) hvfork [.execve 62 onePage 0 0] hsteps 0⟩

/-- The child has its heap where the heap of the parent is, and writes to it. -/
def writeOwnHeap : List ChildStep := [.execve 62 onePage 0 0, .brk 0x401001, .write 0x401000 1]

theorem child_heap_overwrites_parent :
    ((run (ChildStep.act 0x1000000) childOfParent writeOwnHeap).kernel.tasks 1).heapBase =
      0x401000 ∧
    ((run (ChildStep.act 0x1000000) childOfParent writeOwnHeap).kernel.tasks 1).heapEnd = 0x401001 ∧
    ¬ SameImage 0 parentWithHeap
      ((run (ChildStep.act 0x1000000) childOfParent writeOwnHeap).exit 0x1000000 0) := by
  refine ⟨by decide +kernel, by decide +kernel, fun h => ?_⟩
  have hmem := h.2 0x401000 (by unfold Owns; decide)
  exact absurd hmem (by decide +kernel)

end Shared
end SageOS
