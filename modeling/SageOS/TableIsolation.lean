import SageOS.GuardedRun
import SageOS.ThreadLifecycle

/-!
# Isolation of capability tables

The table of a thread is entry `id mod 64` of one array, while ids grow without bound and 128
threads may be alive. Tables stay separate along every run in which no new id selects the entry
of a live thread, and the 64th thread created after boot already shares the table of thread 0.
-/
namespace SageOS
namespace Kernel

def Isolated (k : Kernel) : Prop :=
  ∀ i j, k.live i → k.live j → i ≠ j → k.extIndex i ≠ k.extIndex j

/-- The next id selects the table of no live thread. -/
def NextTableFree (k : Kernel) : Prop :=
  ∀ i, k.live i → k.extIndex i ≠ k.nextPid % schedMaxThreads

/-- What a step that creates the thread in slot `c` can do. -/
structure Born (k : Kernel) (c : ℕ) (k' : Kernel) : Prop where
  unused : ¬ k.live c
  id : (k'.tasks c).id = k.nextPid
  id_of_ne : ∀ j, j ≠ c → (k'.tasks j).id = (k.tasks j).id
  live : ∀ j, j ≠ c → k'.live j → k.live j
  tables : ∀ j, j ≠ c → k.extIndex j ≠ k.nextPid % schedMaxThreads →
    k'.capTable j = k.capTable j

variable {k k' : Kernel} {c : ℕ}

theorem Created.born (h : Created k c k') : Born k c k' where
  unused := not_not.mpr h.unused
  id := h.id
  id_of_ne j hj := by rw [h.frame j hj]
  live j hj := by
    unfold Kernel.live
    rw [h.frame j hj]
    exact fun hl => hl
  tables _ hj hext := h.capTable_of_ne hj hext

theorem Spawned.born (h : Spawned k c k') : Born k c k' where
  unused := not_not.mpr h.unused
  id := h.id
  id_of_ne j hj := by rw [h.frame j hj]
  live j hj := by
    unfold Kernel.live
    rw [h.frame j hj]
    exact fun hl => hl
  tables := h.tables

theorem born_of_sysVfork (hlive : k.live k.current) (h : k.sysVfork = (some c, k')) :
    Born k c k' := by
  obtain ⟨k₁, hcr, -, hext, hid, hunused⟩ := sysVfork_eq_some h
  refine ⟨not_not.mpr hcr.unused, (hid c).trans hcr.id, fun j hj => ?_, fun j hj hl => ?_,
    fun j hj hne => ?_⟩
  · rw [hid, hcr.frame j hj]
  · by_cases hcur : j = k.current
    · rw [hcur]
      exact hlive
    · exact hcr.born.live j hj ((hunused j hcur).not.mp hl)
  · have htab : k'.capTable j = k₁.capTable j := by
      unfold capTable extIndex
      rw [hext, hid]
    rw [htab, hcr.capTable_of_ne hj hne]

namespace Born

theorem extIndex_self (h : Born k c k') : k'.extIndex c = k.nextPid % schedMaxThreads := by
  unfold extIndex
  rw [h.id]

theorem extIndex_of_ne (h : Born k c k') {j : ℕ} (hj : j ≠ c) : k'.extIndex j = k.extIndex j := by
  unfold extIndex
  rw [h.id_of_ne j hj]

theorem isolated (h : Born k c k') (hfree : k.NextTableFree) (hiso : k.Isolated) :
    k'.Isolated := by
  have hnew : ∀ j, j ≠ c → k'.live j → k'.extIndex j ≠ k'.extIndex c := by
    intro j hj hl
    rw [h.extIndex_of_ne hj, h.extIndex_self]
    exact hfree j (h.live j hj hl)
  intro i j hi hj hij
  by_cases hic : i = c
  · subst hic
    exact (hnew j hij.symm hj).symm
  by_cases hjc : j = c
  · subst hjc
    exact hnew i hic hi
  rw [h.extIndex_of_ne hic, h.extIndex_of_ne hjc]
  exact hiso i j (h.live i hic hi) (h.live j hjc hj) hij

theorem capTable (h : Born k c k') (hfree : k.NextTableFree) {j : ℕ} (hj : k.live j) :
    k'.capTable j = k.capTable j :=
  h.tables j (fun hjc => h.unused (hjc ▸ hj)) (hfree j hj)

end Born

namespace Settled

theorem isolated (h : Settled k k') (hiso : k.Isolated) : k'.Isolated := by
  intro i j hi hj hij
  have hne := hiso i j (h.live i hi) (h.live j hj) hij
  unfold extIndex at hne ⊢
  rwa [h.id, h.id]

theorem capTable (h : Settled k k') (hiso : k.Isolated) (hcur : k.live k.current) {j : ℕ}
    (hj : j ≠ k.current) (hl : k'.live j) : k'.capTable j = k.capTable j := by
  have hjl := h.live j hl
  have hidx : k'.extIndex j = k.extIndex j := by
    unfold extIndex
    rw [h.id]
  unfold Kernel.capTable
  rw [hidx]
  refine h.ipcExt _ (hiso j _ hjl hcur hj) fun c hc hreap => hiso j c hjl hc ?_
  rintro rfl
  exact hreap hl

end Settled
end Kernel

open Kernel GuardedRun
namespace ThreadEvent

def creates : ThreadEvent → Prop
  | .create _ _ | .vfork | .spawn _ _ => True
  | _ => False

/-- A thread may be created only when the next id selects the table of no live thread. -/
def Fresh (k : Kernel) (e : ThreadEvent) : Prop := e.creates → k.NextTableFree

/-- Creating a thread leaves every table as it is, and anything else leaves the tables of all
threads but the acting one, as long as they are not reaped. -/
def Undisturbed (k : Kernel) (e : ThreadEvent) : Prop :=
  ∀ j, k.live j → (step k e).live j → (j = k.current → e.creates) →
    (step k e).capTable j = k.capTable j

variable {k : Kernel}

theorem act_of_creates (hlive : k.live k.current) {e : ThreadEvent} (he : e.creates) :
    (∃ c, Born k c (e.act k)) ∨ (e.act k).tasks = k.tasks ∧ (e.act k).ipcExt = k.ipcExt := by
  cases e with
  | create name priority =>
    cases hc : k.schedCreateThread name priority with
    | none =>
      have hact : act k (.create name priority) = k := by simp only [act, hc, Option.elim_none]
      exact .inr ⟨congrArg tasks hact, congrArg ipcExt hact⟩
    | some r =>
      have hact : act k (.create name priority) = r.2 := by simp only [act, hc, Option.elim_some]
      rw [hact]
      exact .inl ⟨r.1, (k.schedCreateThread_created hc).born⟩
  | vfork =>
    change (∃ c, Born k c k.sysVfork.2) ∨ k.sysVfork.2.tasks = _ ∧ k.sysVfork.2.ipcExt = _
    cases hv : k.sysVfork with
    | mk child k' =>
      cases child with
      | some c => exact .inl ⟨c, born_of_sysVfork hlive hv⟩
      | none =>
        have hk : k' = k := eq_of_sysVfork_eq_none hv
        exact .inr ⟨congrArg tasks hk, congrArg ipcExt hk⟩
  | spawn name path =>
    change (∃ c, Born k c (k.osSpawnTask name path).2.2) ∨
      (k.osSpawnTask name path).2.2.tasks = _ ∧ (k.osSpawnTask name path).2.2.ipcExt = _
    rcases hv : k.osSpawnTask name path with ⟨code, child, k'⟩
    rcases osSpawnTask_spec hv with ⟨-, hsame⟩ | ⟨c, -, hspawned⟩
    · exact .inr hsame
    · exact .inl ⟨c, hspawned.born⟩
  | exit | waitpid | ipc | schedule => exact he.elim

theorem act_of_not_creates (hlive : k.live k.current) {e : ThreadEvent} (he : ¬ e.creates) :
    Settled k (e.act k) := by
  cases e with
  | exit code => exact .sysExit code hlive
  | waitpid pid => exact .sysWaitpid pid hlive
  | ipc c => exact .of_ownTableOnly (c.exec_ownTableOnly k hlive)
  | schedule => exact .of_ownTableOnly (.schedSchedule k)
  | create | vfork | spawn => exact absurd trivial he

theorem step_cases (k : Kernel) (e : ThreadEvent) :
    (Settled k (step k e) ∧ (step k e).ipcExt = k.ipcExt) ∨ (e.creates ∧ ∃ c, Born k c (step k e)) ∨
      (¬ e.creates ∧ k.live k.current ∧ Settled k (step k e)) := by
  by_cases hs : ∃ u : Unit, e = .schedule
  · obtain ⟨-, rfl⟩ := hs
    exact .inl ⟨.of_ownTableOnly (.schedSchedule k), (OnlyThreads.schedSchedule k).ipcExt⟩
  have hstep : step k e = if (k.tasks k.current).state = .running then e.act k else k := by
    cases e with
    | schedule => exact absurd ⟨(), rfl⟩ hs
    | create | vfork | spawn | exit | waitpid | ipc => rfl
  rw [hstep]
  split_ifs with hrun
  · have hlive := live_current hrun
    by_cases he : e.creates
    · rcases act_of_creates hlive he with hborn | ⟨htasks, hext⟩
      · exact .inr (.inl ⟨he, hborn⟩)
      · refine .inl ⟨⟨fun j => by rw [htasks], fun j => ?_, fun i _ _ => by rw [hext]⟩, hext⟩
        unfold Kernel.live
        rw [htasks]
        exact fun hl => hl
    · exact .inr (.inr ⟨he, hlive, act_of_not_creates hlive he⟩)
  · exact .inl ⟨.of_ownTableOnly (.refl k), rfl⟩

theorem isolated_step (e : ThreadEvent) (hiso : k.Isolated) (hfresh : Fresh k e) :
    (step k e).Isolated := by
  rcases step_cases k e with ⟨hset, -⟩ | ⟨he, c, hborn⟩ | ⟨-, -, hset⟩
  · exact hset.isolated hiso
  · exact hborn.isolated (hfresh he) hiso
  · exact hset.isolated hiso

theorem undisturbed_step (e : ThreadEvent) (hiso : k.Isolated) (hfresh : Fresh k e) :
    Undisturbed k e := by
  intro j hj hj' hcur
  rcases step_cases k e with ⟨hset, hext⟩ | ⟨he, c, hborn⟩ | ⟨he, hlive, hset⟩
  · unfold Kernel.capTable Kernel.extIndex
    rw [hext, hset.id]
  · exact hborn.capTable (hfresh he) hj
  · exact hset.capTable hiso hlive (fun h => he (hcur h)) hj'

theorem live_boot {i : ℕ} : boot.live i ↔ i = 0 := by
  by_cases h0 : i = 0
  · simp [h0, Kernel.live, boot, ipcSubsystemInit, schedInit, idleThread]
  · simp [h0, Kernel.live, boot, ipcSubsystemInit, schedInit]

theorem isolated_boot : boot.Isolated := by
  intro i j hi hj hij
  exact absurd ((live_boot.mp hi).trans (live_boot.mp hj).symm) hij

/-- Along every run from boot in which no new id selects the table of a live thread, tables are
never shared and no step disturbs the table of another thread. -/
theorem isolated_of_fresh_run (es : List ThreadEvent) (hes : Guarded step Fresh boot es) :
    (run step boot es).Isolated ∧
      ∀ e, Fresh (run step boot es) e → Undisturbed (run step boot es) e := by
  have hiso : (run step boot es).Isolated :=
    invariant_run (fun _ e hk he => isolated_step e hk he) isolated_boot hes
  exact ⟨hiso, fun e he => undisturbed_step e hiso he⟩

/-- The table entries of the live threads come from earlier ids or from the next one. -/
theorem extIndex_step {S : List ℕ} (hS : ∀ i, k.live i → k.extIndex i ∈ S) (e : ThreadEvent) :
    ∀ i, (step k e).live i → (step k e).extIndex i ∈ k.nextPid % schedMaxThreads :: S := by
  have hsettled : Settled k (step k e) → ∀ i, (step k e).live i →
      (step k e).extIndex i ∈ k.nextPid % schedMaxThreads :: S := by
    intro hset i hi
    unfold Kernel.extIndex
    rw [hset.id]
    exact List.mem_cons_of_mem _ (hS i (hset.live i hi))
  rcases step_cases k e with ⟨hset, -⟩ | ⟨-, c, hborn⟩ | ⟨-, -, hset⟩
  · exact hsettled hset
  · intro i hi
    by_cases hic : i = c
    · rw [hic, hborn.extIndex_self]
      exact List.mem_cons_self
    · rw [hborn.extIndex_of_ne hic]
      exact List.mem_cons_of_mem _ (hS i (hborn.live i hic hi))
  · exact hsettled hset

/-- Three threads are created, and the first of them makes an endpoint and exits. -/
def threeThreads : List ThreadEvent :=
  [.create (bytes "shell") .normal, .create (bytes "net") .normal, .create (bytes "log") .normal,
    .schedule, .ipc .endpointCreate, .exit 0]

theorem other_threads_undisturbed : Guarded step Fresh boot threeThreads ∧
    Undisturbed (run step boot threeThreads) (.ipc .endpointCreate) := by
  have h0 : ∀ i, boot.live i → boot.extIndex i ∈ [0] := by
    intro i hi
    rw [live_boot.mp hi]
    decide
  have h1 := extIndex_step h0 (.create (bytes "shell") .normal)
  have h2 := extIndex_step h1 (.create (bytes "net") .normal)
  have hes : Guarded step Fresh boot threeThreads := by
    refine ⟨fun _ i hi heq => ?_, fun _ i hi heq => ?_, fun _ i hi heq => ?_, nofun, nofun, nofun,
      trivial⟩
    · exact absurd (heq ▸ h0 i hi) (by decide)
    · exact absurd (heq ▸ h1 i hi) (by decide +kernel)
    · exact absurd (heq ▸ h2 i hi) (by decide +kernel)
  exact ⟨hes, (isolated_of_fresh_run _ hes).2 _ nofun⟩

def crowd (n : ℕ) : List ThreadEvent := List.replicate n (.create (bytes "worker") .normal)

/-- The 64th thread created after boot gets the table of thread 0 and overwrites it. -/
theorem sixtyFourth_thread_shares_table :
    ¬ Undisturbed (run step boot (crowd 63)) (.create (bytes "worker") .normal) ∧
      ¬ (step (run step boot (crowd 63)) (.create (bytes "worker") .normal)).Isolated := by
  have hlive : ∀ j ∈ [0, 64],
      (step (run step boot (crowd 63)) (.create (bytes "worker") .normal)).live j := by
    decide +kernel
  have h0 := hlive 0 (by decide)
  refine ⟨fun hsame => ?_, fun hiso => ?_⟩
  · have htab := hsame 0 (by decide +kernel) h0 fun _ => trivial
    exact absurd (congrArg CapTable.nextFree htab) (by decide +kernel)
  · exact hiso 0 64 h0 (hlive 64 (by decide)) (by decide) (by decide +kernel)

end ThreadEvent
end SageOS
