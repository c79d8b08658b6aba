import SageOS.IpcCallFrame
import SageOS.Process

/-!
# Exits, reaping and runs of threads

A thread leaves with `sys_exit` and is reaped by `sys_waitpid`, which releases its capabilities in
the context of the reaping thread. Runs interleave creations, exits, reaps, IPC calls and
scheduling; only a running thread acts.
-/
namespace SageOS
namespace Kernel
variable (k : Kernel)

/-- One capability of the thread whose table is entry `ext`: its count drops, and at zero the
object behind the *current* thread's handle of the same number is destroyed. -/
def cleanupSlot (ext : ℕ) (k : Kernel) (i : ℕ) : Kernel :=
  let cap := (k.ipcExt ext).caps i
  if cap.isValid then
    let dropped := { cap with refCount := cap.refCount - 1 }
    let k₁ := { k with ipcExt := Function.update k.ipcExt ext ((k.ipcExt ext).set i dropped) }
    let k₂ := if dropped.refCount = 0 ∧ dropped.hasRight ipcCapRightRevoke then
      (k₁.sysIpcObjectDestroy i).2 else k₁
    let cleared := { (k₂.ipcExt ext).caps i with objectType := .none }
    { k₂ with ipcExt := Function.update k₂.ipcExt ext ((k₂.ipcExt ext).set i cleared) }
  else k

def schedIpcCleanupThread (child : ℕ) : Kernel :=
  let ext := k.extIndex child
  let k₁ := (List.range ipcCapMaxPerTask).foldl (cleanupSlot ext) k
  { k₁ with ipcExt := Function.update k₁.ipcExt ext CapTable.empty }

def sysWaitpid (pid : ℕ) : IpcOutcome × Kernel :=
  match k.schedGetThreadById pid with
  | none => (.ret 22, k)
  | some c =>
    if (k.tasks c).state = .terminated then
      (.ret pid, (k.schedIpcCleanupThread c).modifyTask c fun t => { t with state := .unused })
    else
      (.blocked, (k.modifyTask k.current fun t => { t with state := .blocked }).schedSchedule)

/-- The saved image of a parent is given back before the thread terminates. -/
def restoreParentImage (t : ℕ) : Kernel :=
  match (k.tasks t).parent with
  | none => k
  | some p =>
    match (k.tasks p).savedElfData with
    | none => k
    | some ptr =>
      { k with arena := k.arena.sageFree ptr }.modifyTask p fun th =>
        { th with savedElfData := none }

def sysExit (code : ℤ) : Kernel :=
  let k₁ := k.modifyTask k.current fun t => { t with exitCode := code }
  (k₁.restoreParentImage k.current).schedExit

end Kernel

inductive ThreadEvent
  | create (name : Bytes) (priority : ThreadPriority)
  | vfork
  | spawn (name path : Bytes)
  | exit (code : ℤ)
  | waitpid (pid : ℕ)
  | ipc (c : IpcCall)
  | schedule

namespace ThreadEvent
open Kernel

def act (k : Kernel) : ThreadEvent → Kernel
  | .create name priority => (k.schedCreateThread name priority).elim k (·.2)
  | .vfork => k.sysVfork.2
  | .spawn name path => (k.osSpawnTask name path).2.2
  | .exit code => k.sysExit code
  | .waitpid pid => (k.sysWaitpid pid).2
  | .ipc c => c.exec k
  | .schedule => k.schedSchedule

/-- The scheduler may be entered at any time; everything else is done by a running thread. -/
def step (k : Kernel) (e : ThreadEvent) : Kernel :=
  match e with
  | .schedule => k.schedSchedule
  | e => if (k.tasks k.current).state = .running then e.act k else k

end ThreadEvent

namespace Kernel

def live (k : Kernel) (j : ℕ) : Prop := (k.tasks j).state ≠ .unused

instance (k : Kernel) (j : ℕ) : Decidable (k.live j) := inferInstanceAs (Decidable (_ ≠ _))

theorem live_current {k : Kernel} (h : (k.tasks k.current).state = .running) :
    k.live k.current := by
  unfold live
  rw [h]
  decide

/-- What a step that creates no thread can do: a table it writes belongs to the acting thread or
to a thread that it reaps. -/
structure Settled (k k' : Kernel) : Prop where
  id : ∀ j, (k'.tasks j).id = (k.tasks j).id
  live : ∀ j, k'.live j → k.live j
  ipcExt : ∀ i, i ≠ k.extIndex k.current → (∀ c, k.live c → ¬ k'.live c → i ≠ k.extIndex c) →
    k'.ipcExt i = k.ipcExt i

/-- What the release of the capabilities in entry `ext` can do. -/
structure Released (ext : ℕ) (k k' : Kernel) : Prop where
  tasks : k'.tasks = k.tasks
  current : k'.current = k.current
  ipcExt : ∀ i, i ≠ ext → i ≠ k.extIndex k.current → k'.ipcExt i = k.ipcExt i

namespace Released
variable {ext : ℕ} {k k' k'' : Kernel}

theorem refl (k : Kernel) : Released ext k k := ⟨rfl, rfl, fun _ _ _ => rfl⟩

theorem trans (h : Released ext k k') (h' : Released ext k' k'') : Released ext k k'' where
  tasks := h'.tasks.trans h.tasks
  current := h'.current.trans h.current
  ipcExt i hi hown := by
    have hown' : i ≠ k'.extIndex k'.current := by
      unfold extIndex
      rw [h.tasks, h.current]
      exact hown
    rw [h'.ipcExt i hi hown', h.ipcExt i hi hown]

theorem write (k : Kernel) (tab : CapTable) :
    Released ext k { k with ipcExt := Function.update k.ipcExt ext tab } :=
  ⟨rfl, rfl, fun _ hi _ => Function.update_of_ne hi _ _⟩

theorem sysIpcObjectDestroy (k : Kernel) (handle : ℕ) :
    Released ext k (k.sysIpcObjectDestroy handle).2 := by
  unfold Kernel.sysIpcObjectDestroy
  cases k.resolveWith handle ipcCapRightRevoke with
  | none => exact refl k
  | some cap =>
    have hsame := Inert.destroyObject k cap
    exact ⟨hsame.tasks, hsame.current, fun i _ hi =>
      (hsame.ownTableOnly.trans hsame.current (.setOwnTable _ _)).ipcExt i hi⟩

theorem cleanupSlot (k : Kernel) (i : ℕ) : Released ext k (cleanupSlot ext k i) := by
  unfold Kernel.cleanupSlot
  dsimp only
  split_ifs
  · exact ((write k _).trans (sysIpcObjectDestroy _ i)).trans (write _ _)
  · exact (write k _).trans (write _ _)
  · exact refl k

theorem foldl_cleanupSlot (slots : List ℕ) (k : Kernel) :
    Released ext k (slots.foldl (Kernel.cleanupSlot ext) k) := by
  induction slots generalizing k with
  | nil => exact refl k
  | cons i rest ih => exact (cleanupSlot k i).trans (ih _)

theorem schedIpcCleanupThread (k : Kernel) (child : ℕ) :
    Released (k.extIndex child) k (k.schedIpcCleanupThread child) :=
  (foldl_cleanupSlot _ k).trans (write _ _)

end Released

namespace Settled
variable {k k' k'' : Kernel}

theorem of_ownTableOnly (h : OwnTableOnly k k') : Settled k k' :=
  ⟨h.id, fun j => (h.unused j).not.mp, fun i hi _ => h.ipcExt i hi⟩

theorem wakeAll (k : Kernel) : OwnTableOnly k k.wakeAll := by
  have htask (j : ℕ) : (k.wakeAll.tasks j).id = (k.tasks j).id ∧
      ((k.wakeAll.tasks j).state = .unused ↔ (k.tasks j).state = .unused) := by
    unfold Kernel.wakeAll
    dsimp only
    split_ifs with hj
    · simp [hj.2]
    · exact ⟨rfl, Iff.rfl⟩
  exact ⟨fun j => (htask j).1, fun j => (htask j).2, rfl, fun _ _ => rfl⟩

theorem restoreParentImage (k : Kernel) (t : ℕ) :
    OwnTableOnly k (k.restoreParentImage t) ∧ (k.restoreParentImage t).current = k.current := by
  unfold Kernel.restoreParentImage
  cases (k.tasks t).parent with
  | none => exact ⟨.refl k, rfl⟩
  | some p =>
    dsimp only
    cases (k.tasks p).savedElfData with
    | none => exact ⟨.refl k, rfl⟩
    | some ptr =>
      have hfree : OwnTableOnly k { k with arena := k.arena.sageFree ptr } :=
        .of_eq rfl rfl rfl
      exact ⟨hfree.trans rfl (.modifyTask _ p (fun th => { th with savedElfData := none })
        (fun _ => rfl) Iff.rfl), rfl⟩

theorem schedExit (hlive : k.live k.current) : OwnTableOnly k k.schedExit := by
  have hterm := OwnTableOnly.modifyTask k k.current (fun t => { t with state := .terminated })
    (fun _ => rfl) ⟨nofun, fun h => absurd h hlive⟩
  exact (hterm.trans rfl (wakeAll _)).trans rfl (.schedSchedule _)

theorem sysExit (code : ℤ) (hlive : k.live k.current) : Settled k (k.sysExit code) := by
  have hcode := OwnTableOnly.modifyTask k k.current (fun t => { t with exitCode := code })
    (fun _ => rfl) Iff.rfl
  obtain ⟨himg, hcur⟩ := restoreParentImage
    (k.modifyTask k.current fun t => { t with exitCode := code }) k.current
  have hleft := hcode.trans rfl himg
  refine of_ownTableOnly (hleft.trans hcur (schedExit ?_))
  rw [hcur]
  exact (hleft.unused k.current).not.mpr hlive

theorem sysWaitpid (pid : ℕ) (hlive : k.live k.current) : Settled k (k.sysWaitpid pid).2 := by
  unfold Kernel.sysWaitpid
  cases hc : k.schedGetThreadById pid with
  | none => exact of_ownTableOnly (.refl k)
  | some c =>
    dsimp only
    split_ifs with ht
    · have hrel := Released.schedIpcCleanupThread k c
      refine ⟨fun j => ?_, fun j => ?_, fun i hi hreap => ?_⟩
      · rw [id_modifyTask, hrel.tasks]
        exact fun _ => rfl
      · unfold Kernel.live
        by_cases hj : j = c
        · subst hj
          simp [ht]
        · simp only [modifyTask, setTask_of_ne _ hj, hrel.tasks, imp_self]
      · refine hrel.ipcExt i (hreap c ?_ ?_) hi
        · simp [Kernel.live, ht]
        · simp [Kernel.live, modifyTask]
    · exact of_ownTableOnly (.schedBlock hlive)

end Settled
end Kernel
end SageOS
