import SageOS.SendAtomicity
import SageOS.ThreadLifecycle

/-!
# The frame of the cleanup

The release of a thread's capabilities runs in the context of the thread that reaps it, and asks
for the destruction of an object by the number of the child's slot. The number is looked up in the
table of the reaping thread. Slot by slot, what happens to that table depends on both tables as
they were before, since each slot is visited once.
-/
namespace SageOS
open List Function Option CapTable
namespace Kernel
variable {k k' : Kernel} {ext : ℕ}

/-- Slot `i` of the entry `ext` drops its last reference with the right to revoke. -/
def Releases (k : Kernel) (ext i : ℕ) : Prop :=
  ((k.ipcExt ext).caps i).isValid ∧ ((k.ipcExt ext).caps i).refCount = 1 ∧
    ((k.ipcExt ext).caps i).hasRight ipcCapRightRevoke

instance (k : Kernel) (ext i : ℕ) : Decidable (k.Releases ext i) :=
  inferInstanceAs (Decidable (_ ∧ _ ∧ _))

/-- The release meets a capability of the current thread that it may revoke with. -/
def Hits (k : Kernel) (ext i : ℕ) : Prop :=
  k.Releases ext i ∧ (k.resolveWith i ipcCapRightRevoke).isSome

instance (k : Kernel) (ext i : ℕ) : Decidable (k.Hits ext i) :=
  inferInstanceAs (Decidable (_ ∧ _))

def setExt (k : Kernel) (ext : ℕ) (tab : CapTable) : Kernel :=
  { k with ipcExt := update k.ipcExt ext tab }

@[simp] theorem setExt_self (k : Kernel) (ext : ℕ) (tab : CapTable) :
    (k.setExt ext tab).ipcExt ext = tab := update_self ..

@[simp] theorem setExt_setExt (k : Kernel) (ext : ℕ) (tab tab' : CapTable) :
    (k.setExt ext tab).setExt ext tab' = k.setExt ext tab' := by
  simp [setExt]

theorem setExt_eq_self (k : Kernel) (ext : ℕ) : k.setExt ext (k.ipcExt ext) = k := by
  simp [setExt]

theorem ownTable_setExt (k : Kernel) (hne : ext ≠ k.extIndex k.current) (tab : CapTable) :
    (k.setExt ext tab).ownTable = k.ownTable := update_of_ne hne.symm _ _

variable {i : ℕ}

theorem cleanupSlot_of_not_isValid (h : ¬ ((k.ipcExt ext).caps i).isValid) :
    cleanupSlot ext k i = k := by
  unfold cleanupSlot
  rw [if_neg h]

theorem cleanupSlot_of_isValid (h : ((k.ipcExt ext).caps i).isValid) : cleanupSlot ext k i =
      let cap := (k.ipcExt ext).caps i
      let k₁ := k.setExt ext ((k.ipcExt ext).set i { cap with refCount := cap.refCount - 1 })
      let k₂ := if k.Releases ext i then (k₁.sysIpcObjectDestroy i).2 else k₁
      k₂.setExt ext ((k₂.ipcExt ext).set i
        { (k₂.ipcExt ext).caps i with objectType := .none }) := by
  have hzero : ((k.ipcExt ext).caps i).refCount - 1 = 0 ↔ ((k.ipcExt ext).caps i).refCount = 1 := by
    constructor
    · intro hz
      rw [← UInt32.sub_add_cancel ((k.ipcExt ext).caps i).refCount 1, hz]
      rfl
    · intro ho
      rw [ho]
      rfl
  have hcond : (((k.ipcExt ext).caps i).refCount - 1 = 0 ∧
      ((k.ipcExt ext).caps i).hasRight ipcCapRightRevoke) ↔ k.Releases ext i := by
    rw [hzero]
    exact ⟨fun hr => ⟨h, hr⟩, fun hr => hr.2⟩
  dsimp only
  rw [← if_congr hcond rfl rfl]
  unfold cleanupSlot
  rw [if_pos h]
  rfl

theorem sysIpcObjectDestroy_of_none (h : k.resolveWith i ipcCapRightRevoke = none) :
    (k.sysIpcObjectDestroy i).2 = k := by
  unfold sysIpcObjectDestroy
  rw [h]

theorem cleanupSlot_of_none
    (h : k.Releases ext i → (k.setExt ext ((k.ipcExt ext).set i { (k.ipcExt ext).caps i with
      refCount := ((k.ipcExt ext).caps i).refCount - 1 })).resolveWith i ipcCapRightRevoke = none) :
    ∃ tab, cleanupSlot ext k i = k.setExt ext tab ∧
      ∀ j, j ≠ i → tab.caps j = (k.ipcExt ext).caps j := by
  by_cases hv : ((k.ipcExt ext).caps i).isValid
  · rw [cleanupSlot_of_isValid hv]
    dsimp only
    have hsame {k₁ : Kernel} (hk : k.Releases ext i → k₁.resolveWith i ipcCapRightRevoke = none) :
        (if k.Releases ext i then (k₁.sysIpcObjectDestroy i).2 else k₁) = k₁ := by
      by_cases hr : k.Releases ext i
      · rw [if_pos hr, sysIpcObjectDestroy_of_none (hk hr)]
      · rw [if_neg hr]
    rw [hsame h, setExt_setExt, setExt_self]
    refine ⟨_, rfl, fun j hj => ?_⟩
    rw [set_caps_of_ne _ hj, set_caps_of_ne _ hj]
  · exact ⟨k.ipcExt ext, by rw [cleanupSlot_of_not_isValid hv, setExt_eq_self], fun _ _ => rfl⟩

/-- A table shared with the child: the dropped slot is no longer valid when it is looked up. -/
theorem cleanupSlot_of_shared (hext : ext = k.extIndex k.current) (i : ℕ) :
    ∃ tab, cleanupSlot ext k i = k.setExt ext tab := by
  have hnone : k.Releases ext i → (k.setExt ext ((k.ipcExt ext).set i { (k.ipcExt ext).caps i with
      refCount := ((k.ipcExt ext).caps i).refCount - 1 })).resolveWith i ipcCapRightRevoke =
      none := by
    intro hr
    have hown : ∀ tab, (k.setExt ext tab).ownTable = tab := by
      subst hext
      exact ownTable_setOwnTable k
    unfold resolveWith
    rw [hown, filter_eq_none_iff]
    intro cap hcap
    obtain ⟨-, heq, hvalid⟩ := (resolve_eq_some_iff _).mp hcap
    rw [set_caps_self, hr.2.1] at heq
    subst heq
    exact absurd hvalid.2 (UInt32.lt_irrefl 0)
  obtain ⟨tab, htab, -⟩ := cleanupSlot_of_none hnone
  exact ⟨tab, htab⟩

theorem foldl_cleanupSlot_of_shared (hext : ext = k.extIndex k.current) (slots : List ℕ) :
    ∃ tab, slots.foldl (cleanupSlot ext) k = k.setExt ext tab := by
  induction slots generalizing k with
  | nil => exact ⟨_, (setExt_eq_self k ext).symm⟩
  | cons i rest ih =>
    obtain ⟨tab, htab⟩ := cleanupSlot_of_shared hext i
    rw [foldl_cons, htab]
    obtain ⟨tab', htab'⟩ := ih (k := k.setExt ext tab) hext
    exact ⟨tab', htab'.trans (setExt_setExt ..)⟩

theorem resolveWith_setExt (hne : ext ≠ k.extIndex k.current) (tab : CapTable) (i : ℕ)
    (right : UInt32) : (k.setExt ext tab).resolveWith i right = k.resolveWith i right := by
  unfold resolveWith
  rw [ownTable_setExt k hne]

theorem sysIpcObjectDestroy_of_some {cap : IpcCapability}
    (h : k.resolveWith i ipcCapRightRevoke = some cap) :
    (k.sysIpcObjectDestroy i).2.tasks = k.tasks ∧ (k.sysIpcObjectDestroy i).2.current = k.current ∧
      (k.sysIpcObjectDestroy i).2.ipcExt =
        update k.ipcExt (k.extIndex k.current) (k.ownTable.freeSlot i) := by
  have hsame := Inert.destroyObject k cap
  have hidx : (k.destroyObject cap).extIndex (k.destroyObject cap).current =
      k.extIndex k.current := by
    unfold extIndex
    rw [hsame.tasks, hsame.current]
  have hown : (k.destroyObject cap).ownTable = k.ownTable := by
    unfold ownTable capTable
    rw [hidx, hsame.ipcExt]
  unfold sysIpcObjectDestroy
  rw [h]
  refine ⟨hsame.tasks, hsame.current, ?_⟩
  change update (k.destroyObject cap).ipcExt _ _ = _
  rw [hidx, hown, hsame.ipcExt]

theorem cleanupSlot_of_not_hits (hne : ext ≠ k.extIndex k.current)
    (h : ¬ k.Hits ext i) : ∃ tab, cleanupSlot ext k i = k.setExt ext tab ∧
      ∀ j, j ≠ i → tab.caps j = (k.ipcExt ext).caps j := by
  apply cleanupSlot_of_none
  intro hr
  rw [resolveWith_setExt hne]
  exact not_isSome_iff_eq_none.mp fun hsome => h ⟨hr, hsome⟩

/-- What releasing slot `i` of another thread does to the two tables and to the objects. -/
structure Swept (ext i : ℕ) (k k' : Kernel) : Prop where
  tasks : k'.tasks = k.tasks
  current : k'.current = k.current
  child : ∀ j, j ≠ i → (k'.ipcExt ext).caps j = (k.ipcExt ext).caps j
  own : k'.ownTable = if k.Hits ext i then k.ownTable.freeSlot i else k.ownTable
  objects : ¬ k.Hits ext i → k'.endpoints = k.endpoints ∧ k'.ports = k.ports ∧ k'.shm = k.shm

theorem swept_cleanupSlot (hne : ext ≠ k.extIndex k.current) (i : ℕ) :
    Swept ext i k (cleanupSlot ext k i) := by
  by_cases hhit : k.Hits ext i
  · obtain ⟨cap, hcap⟩ := isSome_iff_exists.mp hhit.2
    rw [cleanupSlot_of_isValid hhit.1.1]
    dsimp only
    rw [if_pos hhit.1]
    have hdestroy (tab : CapTable) := sysIpcObjectDestroy_of_some
      ((resolveWith_setExt hne tab i ipcCapRightRevoke).trans hcap)
    have hchild (tab : CapTable) :
        ((k.setExt ext tab).sysIpcObjectDestroy i).2.ipcExt ext = tab := by
      rw [(hdestroy tab).2.2]
      exact (update_of_ne hne _ _).trans (setExt_self ..)
    have hown (tab tab' : CapTable) :
        (((k.setExt ext tab).sysIpcObjectDestroy i).2.setExt ext tab').ownTable =
          k.ownTable.freeSlot i := by
      obtain ⟨htasks, hcur, hexts⟩ := hdestroy tab
      have hidx : ((k.setExt ext tab).sysIpcObjectDestroy i).2.extIndex
          ((k.setExt ext tab).sysIpcObjectDestroy i).2.current = k.extIndex k.current := by
        unfold extIndex
        rw [htasks, hcur]
        rfl
      rw [ownTable_setExt _ (by rwa [hidx])]
      unfold ownTable capTable
      rw [hidx, hexts]
      exact (update_self ..).trans (congrArg (·.freeSlot i) (ownTable_setExt k hne tab))
    refine ⟨(hdestroy _).1, (hdestroy _).2.1, ?_, ?_, fun hno => absurd hhit hno⟩
    · intro j hj
      rw [setExt_self, hchild, set_caps_of_ne _ hj, set_caps_of_ne _ hj]
    · rw [if_pos hhit, hown]
  · obtain ⟨tab, htab, hcaps⟩ := cleanupSlot_of_not_hits hne hhit
    rw [htab]
    refine ⟨rfl, rfl, ?_, ?_, fun _ => ⟨rfl, rfl, rfl⟩⟩
    · intro j hj
      rw [setExt_self, hcaps j hj]
    · rw [if_neg hhit, ownTable_setExt k hne]

theorem Releases.congr {k k' : Kernel} {ext i : ℕ}
    (h : (k'.ipcExt ext).caps i = (k.ipcExt ext).caps i) :
    k'.Releases ext i ↔ k.Releases ext i := by
  unfold Releases
  rw [h]

theorem resolveWith_congr {k k' : Kernel} {right : UInt32}
    (h : k'.ownTable.caps i = k.ownTable.caps i) :
    k'.resolveWith i right = k.resolveWith i right := by
  unfold resolveWith CapTable.resolve
  rw [h]

structure SweptUpTo (ext n : ℕ) (k k' : Kernel) : Prop where
  tasks : k'.tasks = k.tasks
  current : k'.current = k.current
  child : ∀ j, n ≤ j → (k'.ipcExt ext).caps j = (k.ipcExt ext).caps j
  own : ∀ j, k'.ownTable.caps j = if j < n ∧ k.Hits ext j then {} else k.ownTable.caps j
  nextFree : k'.ownTable.nextFree = k.ownTable.nextFree
  objects : (∀ j < n, ¬ k.Hits ext j) →
    k'.endpoints = k.endpoints ∧ k'.ports = k.ports ∧ k'.shm = k.shm

variable {n : ℕ}

theorem SweptUpTo.slot (h : SweptUpTo ext n k k') : k'.ownTable.caps n = k.ownTable.caps n := by
  rw [h.own n, if_neg fun hc => absurd hc.1 (lt_irrefl n)]

theorem SweptUpTo.hits (h : SweptUpTo ext n k k') : k'.Hits ext n ↔ k.Hits ext n := by
  have hres : k'.resolveWith n ipcCapRightRevoke = k.resolveWith n ipcCapRightRevoke :=
    resolveWith_congr h.slot
  unfold Hits
  rw [Releases.congr (h.child n le_rfl), hres]

theorem freeSlot_of_lt {tab : CapTable} (h : i < ipcCapMaxPerTask) :
    tab.freeSlot i = tab.set i {} := if_neg (by omega)

theorem sweptUpTo_foldl (hne : ext ≠ k.extIndex k.current) (hn : n ≤ ipcCapMaxPerTask) :
    SweptUpTo ext n k ((range n).foldl (cleanupSlot ext) k) := by
  induction n with
  | zero =>
    exact ⟨rfl, rfl, fun _ _ => rfl, fun j => by simp, rfl, fun _ => ⟨rfl, rfl, rfl⟩⟩
  | succ n ih =>
    have hrest := ih (by omega)
    rw [range_succ, foldl_append, foldl_cons, foldl_nil]
    generalize (range n).foldl (cleanupSlot ext) k = k₁ at hrest
    have hne₁ : ext ≠ k₁.extIndex k₁.current := by
      unfold extIndex
      rw [hrest.tasks, hrest.current]
      exact hne
    have hstep := swept_cleanupSlot hne₁ n
    generalize cleanupSlot ext k₁ n = k₂ at hstep
    have hhit := hrest.hits
    have hfree : k₂.ownTable = if k.Hits ext n then k₁.ownTable.set n {} else k₁.ownTable := by
      rw [hstep.own, freeSlot_of_lt (by omega)]
      exact if_congr hhit rfl rfl
    refine ⟨hstep.tasks.trans hrest.tasks, hstep.current.trans hrest.current, ?_, ?_, ?_, ?_⟩
    · intro j hj
      rw [hstep.child j (by omega), hrest.child j (by omega)]
    · intro j
      rw [hfree]
      by_cases hj : j = n
      · subst hj
        by_cases hh : k.Hits ext j
        · rw [if_pos hh, if_pos ⟨by omega, hh⟩, set_caps_self]
        · rw [if_neg hh, if_neg fun hc => hh hc.2, hrest.own j, if_neg fun hc => hh hc.2]
      · have hset : (if k.Hits ext n then k₁.ownTable.set n {} else k₁.ownTable).caps j =
            k₁.ownTable.caps j := by
          split_ifs
          · exact set_caps_of_ne _ hj _
          · rfl
        rw [hset, hrest.own j]
        exact if_congr (and_congr_left fun _ => by omega) rfl rfl
    · rw [hfree, ← hrest.nextFree]
      split_ifs <;> rfl
    · intro hnone
      obtain ⟨he, hp, hs⟩ := hrest.objects fun j hj => hnone j (by omega)
      obtain ⟨he', hp', hs'⟩ := hstep.objects fun hh => hnone n (by omega) (hhit.mp hh)
      exact ⟨he'.trans he, hp'.trans hp, hs'.trans hs⟩

def HoldsOn (k : Kernel) (child : ℕ) (type : IpcObjType → Prop) (id : ℕ) : Prop :=
  ∃ i < ipcCapMaxPerTask, ((k.capTable child).caps i).isValid ∧
    type ((k.capTable child).caps i).objectType ∧ ((k.capTable child).caps i).objectId = id

/-- The table of the current thread and every object the child does not name are unchanged. -/
structure CleanupFramed (k k' : Kernel) (child : ℕ) : Prop where
  own : k'.capTable k.current = k.capTable k.current
  endpoints : ∀ j, ¬ k.HoldsOn child (fun t => t = .endpoint ∨ t = .channel) j →
    k'.endpoints j = k.endpoints j
  ports : ∀ j, ¬ k.HoldsOn child (· = .port) j → k'.ports j = k.ports j
  shm : ∀ j, ¬ k.HoldsOn child (· = .sharedMem) j → k'.shm j = k.shm j

/-- The two threads have different tables and no slot has a capability that the child releases
and the current thread could revoke with; or they share a table that is all zeros. -/
def CleanupHarmless (k : Kernel) (child : ℕ) : Prop :=
  (k.extIndex child ≠ k.extIndex k.current ∧
      ∀ i < ipcCapMaxPerTask, ¬ k.Hits (k.extIndex child) i) ∨
    k.extIndex child = k.extIndex k.current ∧ k.capTable child = CapTable.empty

theorem schedIpcCleanupThread_of_shared {child : ℕ}
    (hext : k.extIndex child = k.extIndex k.current) :
    k.schedIpcCleanupThread child = k.setExt (k.extIndex child) CapTable.empty := by
  obtain ⟨tab, htab⟩ := foldl_cleanupSlot_of_shared hext (range ipcCapMaxPerTask)
  change Kernel.setExt _ _ _ = _
  rw [htab, setExt_setExt]

/-- The whole table of another thread has been released, and is cleared at the end. -/
theorem swept_schedIpcCleanupThread {child : ℕ} (hne : k.extIndex child ≠ k.extIndex k.current) :
    ∃ k₁, SweptUpTo (k.extIndex child) ipcCapMaxPerTask k k₁ ∧
      (k.schedIpcCleanupThread child).capTable k.current = k₁.ownTable ∧
      (k.schedIpcCleanupThread child).endpoints = k₁.endpoints ∧
      (k.schedIpcCleanupThread child).ports = k₁.ports ∧
      (k.schedIpcCleanupThread child).shm = k₁.shm := by
  have hsweep := sweptUpTo_foldl hne (le_refl ipcCapMaxPerTask)
  unfold schedIpcCleanupThread
  dsimp only
  generalize (range ipcCapMaxPerTask).foldl _ k = k₁ at hsweep ⊢
  refine ⟨k₁, hsweep, ?_, rfl, rfl, rfl⟩
  have hidx : k₁.extIndex k.current = k.extIndex k.current := by
    unfold extIndex
    rw [hsweep.tasks]
  have hown : k₁.ownTable = k₁.ipcExt (k.extIndex k.current) := by
    unfold ownTable capTable
    rw [hsweep.current, hidx]
  rw [hown]
  change update k₁.ipcExt _ _ (k₁.extIndex k.current) = _
  rw [hidx, update_of_ne hne.symm]

theorem Hits.lost (h : k.Hits ext i) : k.ownTable.caps i ≠ {} := by
  obtain ⟨cap, hcap⟩ := isSome_iff_exists.mp h.2
  obtain ⟨hres, -⟩ := filter_eq_some_iff.mp hcap
  obtain ⟨-, heq, hvalid⟩ := (resolve_eq_some_iff _).mp hres
  rintro hz
  rw [hz] at heq
  exact IpcCapability.not_isValid_default (heq ▸ hvalid)

end Kernel

open Kernel

/-- Reaping leaves the table of the reaping thread and the objects of others alone exactly when
no slot number is used by both threads for a capability that can be revoked. -/
theorem cleanup_framed_iff (k : Kernel) (child : ℕ) :
    k.CleanupFramed (k.schedIpcCleanupThread child) child ↔ k.CleanupHarmless child := by
  by_cases hext : k.extIndex child = k.extIndex k.current
  · rw [schedIpcCleanupThread_of_shared hext]
    have hown : (k.setExt (k.extIndex child) CapTable.empty).capTable k.current =
        CapTable.empty := by
      rw [hext]
      exact ownTable_setOwnTable k CapTable.empty
    have htable : k.capTable child = k.capTable k.current := congrArg k.ipcExt hext
    constructor
    · intro hframe
      refine .inr ⟨hext, ?_⟩
      rw [htable, ← hframe.own, hown]
    · rintro (⟨hne, -⟩ | ⟨-, hempty⟩)
      · exact absurd hext hne
      · exact ⟨by rw [hown, ← hempty, htable], fun _ _ => rfl, fun _ _ => rfl, fun _ _ => rfl⟩
  · obtain ⟨k₁, hsweep, hown, he, hp, hs⟩ := swept_schedIpcCleanupThread hext
    constructor
    · intro hframe
      refine .inl ⟨hext, fun i hi hhit => hhit.lost ?_⟩
      have hsame : k₁.ownTable = k.ownTable := hown.symm.trans hframe.own
      rw [← hsame, hsweep.own i, if_pos ⟨hi, hhit⟩]
    · rintro (⟨-, hnone⟩ | ⟨heq, -⟩)
      · obtain ⟨he', hp', hs'⟩ := hsweep.objects hnone
        refine ⟨?_, fun j _ => ?_, fun j _ => ?_, fun j _ => ?_⟩
        · have hcaps : k₁.ownTable.caps = k.ownTable.caps := by
            funext j
            rw [hsweep.own j, if_neg fun hc => hnone j hc.1 hc.2]
          rw [hown]
          exact congrArg₂ CapTable.mk hcaps hsweep.nextFree
        · rw [he, he']
        · rw [hp, hp']
        · rw [hs, hs']
      · exact absurd heq hext

/-- Thread 1 is reaped by thread 0; both hold a revocable capability in slot 5, the child on
endpoint 7 and the parent on endpoint 9. -/
def sameSlot : Kernel where
  tasks i := { id := i, state := if i = 0 then .running else .terminated }
  ipcExt x := CapTable.empty.set 5
    { objectType := .endpoint, rights := ipcCapRightRevoke, refCount := 1,
      objectId := if x = 1 then 7 else 9 }
  endpoints i := { id := i, state := .active }

/-- The parent loses its capability and its endpoint dies; the child's endpoint stays alive. -/
theorem cleanup_destroys_parents_endpoint :
    let k' := sameSlot.schedIpcCleanupThread 1
    ((sameSlot.capTable 0).resolve 5).isSome ∧ ((k'.capTable 0).resolve 5).isNone ∧
      (sameSlot.endpoints 9).state = .active ∧ (k'.endpoints 9).state = .dead ∧
      (k'.endpoints 7).state = .active := by
  decide +kernel

end SageOS
