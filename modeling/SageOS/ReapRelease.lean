import SageOS.CleanupObjects

/-!
# What reaping gives back

A reaped thread should leave nothing behind: its stack goes back to the arena, and the endpoints
and ports it created can be allocated again once no other live thread holds a capability on them.
The reap writes the child's table and destroys what the reaping thread happens to hold in the
slots of the child's revocable capabilities; it frees nothing else.
-/
namespace SageOS
namespace Kernel
variable {k : Kernel}

theorem caps_schedIpcCleanupThread {child x : ℕ} (hx : k.extIndex x ≠ k.extIndex child) (i : ℕ) :
    ((k.schedIpcCleanupThread child).capTable x).caps i =
      if k.extIndex x = k.extIndex k.current ∧ i < ipcCapMaxPerTask ∧
        k.Hits (k.extIndex child) i then {} else (k.capTable x).caps i := by
  have hrel := Released.schedIpcCleanupThread k child
  have hidx : (k.schedIpcCleanupThread child).extIndex x = k.extIndex x := by
    unfold extIndex
    rw [hrel.tasks]
  by_cases hown : k.extIndex x = k.extIndex k.current
  · have hne : k.extIndex child ≠ k.extIndex k.current := fun heq => hx (hown.trans heq.symm)
    obtain ⟨k₁, hsweep, htable, -⟩ := swept_schedIpcCleanupThread hne
    have hcur : (k.schedIpcCleanupThread child).capTable x =
        (k.schedIpcCleanupThread child).capTable k.current := by
      unfold capTable extIndex
      rw [hrel.tasks]
      exact congrArg _ hown
    have hsame : k.capTable x = k.ownTable := congrArg k.ipcExt hown
    rw [hcur, htable, hsweep.own i, hsame]
    exact if_congr (by rw [and_iff_right hown]) rfl rfl
  · rw [if_neg fun hc => hown hc.1]
    unfold capTable
    rw [hidx, hrel.ipcExt _ hx hown]

theorem capTable_schedIpcCleanupThread_of_eq {child x : ℕ} (hx : k.extIndex x = k.extIndex child) :
    (k.schedIpcCleanupThread child).capTable x = CapTable.empty := by
  have hidx : (k.schedIpcCleanupThread child).extIndex x = k.extIndex child := by
    rw [← hx]
    unfold extIndex
    rw [(Released.schedIpcCleanupThread k child).tasks]
  unfold capTable
  rw [hidx]
  exact Function.update_self ..

def isEndpointType (t : IpcObjType) : Prop := t = .endpoint ∨ t = .channel

/-- Everything the reaped thread in slot `c` had: its stack, and the endpoints and ports that it
created and on which no live thread holds a capability. -/
structure ReleasedAll (k : Kernel) (c : ℕ) (k' : Kernel) : Prop where
  stack : (k.tasks c).stackBase ≠ 0 → ∀ x, k.arena.InBlock (k.tasks c).stackBase x →
    k'.arena.FreeAt x
  endpoints : ∀ j < ipcMaxEndpoints, (k.endpoints j).boundTask = (k.tasks c).id →
    (∀ x, k'.live x → ¬ k'.HoldsOn x isEndpointType j) → (k'.endpoints j).state.isFree
  ports : ∀ j < ipcMaxPorts, (k.ports j).ownerTask = (k.tasks c).id →
    (∀ x, k'.live x → ¬ k'.HoldsOn x (· = .port) j) → (k'.ports j).state.isFree

/-- Another live thread with a table of its own holds a capability on the object. -/
def HeldByOther (k : Kernel) (c : ℕ) (type : IpcObjType → Prop) (j : ℕ) : Prop :=
  ∃ x, k.live x ∧ k.extIndex x ≠ k.extIndex c ∧ k.HoldsOn x type j

/-- Nothing is left to release before the reap. -/
structure NothingLeft (k : Kernel) (c : ℕ) : Prop where
  stack : (k.tasks c).stackBase ≠ 0 → ∀ x, k.arena.InBlock (k.tasks c).stackBase x →
    k.arena.FreeAt x ∨ ∃ i j ptr, (i < ipcCapMaxPerTask ∧ k.extIndex c ≠ k.extIndex k.current) ∧
      k.Destroys (k.extIndex c) i j ∧ (k.endpoints j).msgRing = some ptr ∧ k.arena.InBlock ptr x
  endpoints : ∀ j < ipcMaxEndpoints, (k.endpoints j).boundTask = (k.tasks c).id →
    (k.endpoints j).state.isFree ∨ k.HeldByOther c isEndpointType j
  ports : ∀ j < ipcMaxPorts, (k.ports j).ownerTask = (k.tasks c).id →
    (k.ports j).state.isFree ∨ k.HeldByOther c (· = .port) j

def reap (k : Kernel) (c : ℕ) : Kernel :=
  (k.schedIpcCleanupThread c).modifyTask c fun t => { t with state := .unused }

theorem sysWaitpid_of_terminated {pid c : ℕ} (hpid : k.schedGetThreadById pid = some c)
    (hterm : (k.tasks c).state = .terminated) : (k.sysWaitpid pid).2 = k.reap c := by
  unfold sysWaitpid
  rw [hpid]
  dsimp only
  rw [if_pos hterm]
  rfl

theorem live_reap {c x : ℕ} : (k.reap c).live x ↔ x ≠ c ∧ k.live x := by
  unfold live reap
  by_cases hx : x = c
  · subst hx
    simp [modifyTask]
  · simp only [modifyTask, setTask_of_ne _ hx, (Released.schedIpcCleanupThread k c).tasks, ne_eq,
      hx, not_false_iff, true_and]

theorem capTable_reap (k : Kernel) (c x : ℕ) :
    (k.reap c).capTable x = (k.schedIpcCleanupThread c).capTable x := by
  unfold reap
  generalize k.schedIpcCleanupThread c = k₁
  have hid : ((k₁.modifyTask c fun t => { t with state := .unused }).tasks x).id =
      (k₁.tasks x).id := by
    rw [id_modifyTask]
    exact fun _ => rfl
  unfold capTable extIndex
  rw [hid]
  rfl

theorem holdsOn_reap {c x : ℕ} {type : IpcObjType → Prop} {j : ℕ} :
    (k.reap c).HoldsOn x type j ↔ k.extIndex x ≠ k.extIndex c ∧ ∃ i < ipcCapMaxPerTask,
      ((k.capTable x).caps i).isValid ∧ type ((k.capTable x).caps i).objectType ∧
      ((k.capTable x).caps i).objectId = j ∧
      ¬ (k.extIndex x = k.extIndex k.current ∧ k.Hits (k.extIndex c) i) := by
  unfold HoldsOn
  rw [capTable_reap]
  by_cases hx : k.extIndex x = k.extIndex c
  · rw [capTable_schedIpcCleanupThread_of_eq hx]
    simp only [hx, ne_eq, not_true_eq_false, false_and, iff_false]
    rintro ⟨i, -, hvalid, -⟩
    exact IpcCapability.not_isValid_default hvalid
  · rw [and_iff_right hx]
    apply exists_congr
    intro i
    apply and_congr_right
    intro hi
    rw [caps_schedIpcCleanupThread hx i]
    by_cases hhit : k.extIndex x = k.extIndex k.current ∧ k.Hits (k.extIndex c) i
    · rw [if_pos ⟨hhit.1, hi, hhit.2⟩]
      constructor
      · exact fun h => absurd h.1 IpcCapability.not_isValid_default
      · exact fun h => absurd hhit h.2.2.2
    · rw [if_neg fun h => hhit ⟨h.1, h.2.2⟩]
      tauto

theorem destroyed_reap (k : Kernel) (c : ℕ) : Destroyed (k.extIndex c)
      (fun i => i < ipcCapMaxPerTask ∧ k.extIndex c ≠ k.extIndex k.current) k (k.reap c) := by
  have hd := destroyed_schedIpcCleanupThread k c
  unfold reap
  generalize k.schedIpcCleanupThread c = k₁ at hd ⊢
  exact hd.congr rfl rfl rfl

/-- One pool: an object that nobody holds after the reap is free exactly when it was free before
or held by another thread. -/
theorem free_after_reap_iff (c : ℕ) (type : IpcObjType → Prop) (j : ℕ) {free free' : Prop}
    (hrun : k.live k.current)
    (hfree : free' ↔ free ∨ ∃ i, (i < ipcCapMaxPerTask ∧ k.extIndex c ≠ k.extIndex k.current) ∧
      k.Hits (k.extIndex c) i ∧ type (k.ownTable.caps i).objectType ∧
      (k.ownTable.caps i).objectId = j) :
    ((∀ x, (k.reap c).live x → ¬ (k.reap c).HoldsOn x type j) → free') ↔
      free ∨ k.HeldByOther c type j := by
  constructor
  · intro h
    by_contra hno
    rw [not_or] at hno
    have hnobody (x : ℕ) (hx : (k.reap c).live x) : ¬ (k.reap c).HoldsOn x type j := by
      rw [holdsOn_reap]
      rintro ⟨hext, i, hi, hvalid, htype, hid, -⟩
      exact hno.2 ⟨x, (live_reap.mp hx).2, hext, i, hi, hvalid, htype, hid⟩
    rcases hfree.mp (h hnobody) with hf | ⟨i, hi, hhit, htype, hid⟩
    · exact hno.1 hf
    · obtain ⟨cap, hcap⟩ := Option.isSome_iff_exists.mp hhit.2
      obtain ⟨hres, -⟩ := Option.filter_eq_some_iff.mp hcap
      obtain ⟨-, rfl, hvalid⟩ := (CapTable.resolve_eq_some_iff _).mp hres
      exact hno.2 ⟨k.current, hrun, hi.2.symm, i, hi.1, hvalid, htype, hid⟩
  · rintro (hf | ⟨x, hlive, hext, i, hi, hvalid, htype, hid⟩) hnobody
    · exact hfree.mpr (.inl hf)
    · have hxc : x ≠ c := by
        rintro rfl
        exact hext rfl
      have hgone := hnobody x (live_reap.mpr ⟨hxc, hlive⟩)
      rw [holdsOn_reap] at hgone
      have hhit : k.extIndex x = k.extIndex k.current ∧ k.Hits (k.extIndex c) i := by
        by_contra hkept
        exact hgone ⟨hext, i, hi, hvalid, htype, hid, hkept⟩
      have hsame : k.capTable x = k.ownTable := congrArg k.ipcExt hhit.1
      rw [hsame] at htype hid
      exact hfree.mpr (.inr ⟨i, ⟨hi, fun heq => hext (hhit.1.trans heq.symm)⟩, hhit.2, htype, hid⟩)

end Kernel

open Kernel

/-- A reap releases everything exactly when nothing was left to release. -/
theorem reap_releases_all_iff {k : Kernel} {pid c : ℕ}
    (hrun : (k.tasks k.current).state = .running) (hpid : k.schedGetThreadById pid = some c)
    (hterm : (k.tasks c).state = .terminated) :
    k.ReleasedAll c (k.sysWaitpid pid).2 ↔ k.NothingLeft c := by
  rw [sysWaitpid_of_terminated hpid hterm]
  have hlive := live_current hrun
  have hd := destroyed_reap k c
  have hep (j : ℕ) := free_after_reap_iff c isEndpointType j hlive (hd.state j)
  have hport (j : ℕ) := free_after_reap_iff c (· = .port) j hlive (hd.portState j)
  constructor
  · intro h
    refine ⟨fun hbase x hx => (hd.freeAt x).mp (h.stack hbase x hx), fun j hj hb => ?_,
      fun j hj ho => ?_⟩
    · exact (hep j).mp (h.endpoints j hj hb)
    · exact (hport j).mp (h.ports j hj ho)
  · intro h
    refine ⟨fun hbase x hx => (hd.freeAt x).mpr (h.stack hbase x hx), fun j hj hb => ?_,
      fun j hj ho => ?_⟩
    · exact (hep j).mpr (h.endpoints j hj hb)
    · exact (hport j).mpr (h.ports j hj ho)

/-- Thread 0 and a terminated thread 1 whose stack allocation failed. Both hold a capability on
endpoint 0, which thread 1 created. -/
def stackless : Kernel where
  tasks i :=
    { id := i, state := if i = 0 then .running else if i = 1 then .terminated else .unused }
  endpoints i := { state := if i = 0 then .active else .dead, boundTask := 1 }
  ports _ := { state := .dead }
  ipcExt _ := CapTable.empty.set 1 { objectType := .endpoint, rights := 3, refCount := 1 }

theorem stackless_thread_released : stackless.ReleasedAll 1 (stackless.sysWaitpid 1).2 := by
  have hpid : stackless.schedGetThreadById 1 = some 1 := by decide +kernel
  rw [reap_releases_all_iff rfl hpid rfl]
  refine ⟨fun hbase => absurd rfl hbase, fun j _ _ => ?_, fun _ _ _ => .inl rfl⟩
  by_cases hj : j = 0
  · exact .inr ⟨0, by decide, by decide, 1, by decide, by decide, .inl rfl, hj.symm⟩
  · exact .inl (by simp [stackless, hj, IpcLifecycleState.isFree])

/-- Boot, a thread that creates an endpoint and exits; the idle thread is back. -/
def afterWorker : Kernel :=
  [ThreadEvent.create (bytes "worker") .normal, .schedule, .ipc .endpointCreate, .exit 0].foldl
    ThreadEvent.step boot

/-- The worker is reaped; its stack is not free and its endpoint stays active. -/
theorem reaped_worker_leaks : (afterWorker.tasks 1).state = .terminated ∧
      ((afterWorker.sysWaitpid 1).2.tasks 1).state = .unused ∧
      ((afterWorker.sysWaitpid 1).2.endpoints 0).state = .active ∧
      ¬ afterWorker.ReleasedAll 1 (afterWorker.sysWaitpid 1).2 := by
  refine ⟨by decide +kernel, by decide +kernel, by decide +kernel, fun h => ?_⟩
  have hbase : (afterWorker.tasks 1).stackBase = 16 := by decide +kernel
  have hsize : afterWorker.arena.userSize 0 = 65536 := by decide +kernel
  have hnone : (afterWorker.sysWaitpid 1).2.arena.freeList = [] := by decide +kernel
  have hfree := h.stack (by rw [hbase]; decide) 0 (by
    unfold Arena.InBlock
    rw [hbase, show 16 - allocHeaderSize = 0 from rfl, hsize]
    decide)
  unfold Arena.FreeAt at hfree
  rw [hnone] at hfree
  exact Arena.covers_nil hfree

end SageOS
