import SageOS.IpcSyscalls

/-!
# Frames of kernel steps

Most steps inside an IPC call touch neither threads nor capability tables. The others create and
remove no thread, keep every thread id, and write only the entry of the table array that belongs
to the current thread. A blocked thread that is not the current one is passed over by scheduling.
-/
namespace SageOS
namespace Kernel
variable {k k' k'' : Kernel}

/-- From `k` to `k'`, threads and ids are kept and only the current thread's table is written. -/
structure OwnTableOnly (k k' : Kernel) : Prop where
  id : ∀ j, (k'.tasks j).id = (k.tasks j).id
  unused : ∀ j, (k'.tasks j).state = .unused ↔ (k.tasks j).state = .unused
  nextPid : k'.nextPid = k.nextPid
  ipcExt : ∀ i, i ≠ k.extIndex k.current → k'.ipcExt i = k.ipcExt i

def Suspended (k : Kernel) (p : ℕ) : Prop := (k.tasks p).state = .blocked ∧ k.current ≠ p

/-- Steps that touch neither threads nor tables. -/
structure SameThreads (k k' : Kernel) : Prop where
  tasks : k'.tasks = k.tasks
  current : k'.current = k.current
  nextPid : k'.nextPid = k.nextPid
  ipcExt : k'.ipcExt = k.ipcExt

def names (k : Kernel) : (ℕ → IpcNsEntry) × Option ℕ × ℕ := (k.nsEntries, k.nsRoot, k.nsCount)

/-- Steps that touch names as little as threads and tables. -/
structure Inert (k k' : Kernel) : Prop extends SameThreads k k' where
  names : k'.names = k.names

theorem OnlyThreads.names (h : OnlyThreads k k') : k'.names = k.names := by
  obtain ⟨ts, n, rfl⟩ := h
  rfl

theorem OnlyThreads.linkWaiter (k : Kernel) (tail : Option ℕ) (t : ℕ) :
    OnlyThreads k (k.linkWaiter tail t) := by
  cases tail <;> exact ⟨_, _, rfl⟩

theorem runnable_of_schedNext {n : ℕ} (h : k.schedNext = some n) : k.runnable n := by
  simpa using List.find?_some h

theorem endpoints_translateCaps (transfer : Bool) (handles : List ℕ) (k : Kernel) :
    (translateCaps transfer k handles).2.endpoints = k.endpoints := by
  induction handles generalizing k with
  | nil => rfl
  | cons h rest ih =>
    unfold translateCaps
    split_ifs
    · rfl
    · exact ih (k.setOwnTable (k.ownTable.freeSlot h))
    · exact ih k

namespace OwnTableOnly

theorem of_eq (ht : k'.tasks = k.tasks) (hp : k'.nextPid = k.nextPid)
    (he : k'.ipcExt = k.ipcExt) : OwnTableOnly k k' :=
  ⟨fun j => by rw [ht], fun j => by rw [ht], hp, fun i _ => by rw [he]⟩

theorem refl (k : Kernel) : OwnTableOnly k k := of_eq rfl rfl rfl

theorem extIndex (h : OwnTableOnly k k') (j : ℕ) : k'.extIndex j = k.extIndex j := by
  unfold Kernel.extIndex
  rw [h.id]

theorem trans (h : OwnTableOnly k k') (hc : k'.current = k.current) (h' : OwnTableOnly k' k'') :
    OwnTableOnly k k'' where
  id j := (h'.id j).trans (h.id j)
  unused j := (h'.unused j).trans (h.unused j)
  nextPid := h'.nextPid.trans h.nextPid
  ipcExt i hi := by
    rw [h'.ipcExt i (by rwa [hc, h.extIndex]), h.ipcExt i hi]

theorem setOwnTable (k : Kernel) (tab : CapTable) : OwnTableOnly k (k.setOwnTable tab) :=
  ⟨fun _ => rfl, fun _ => Iff.rfl, rfl, fun _ hi => Function.update_of_ne hi _ _⟩

theorem modifyTask (k : Kernel) (i : ℕ) (f : Thread → Thread) (hid : ∀ t, (f t).id = t.id)
    (hf : (f (k.tasks i)).state = .unused ↔ (k.tasks i).state = .unused) :
    OwnTableOnly k (k.modifyTask i f) := by
  refine ⟨k.id_modifyTask i hid, fun j => ?_, rfl, fun _ _ => rfl⟩
  by_cases hj : j = i
  · subst hj
    simpa only [Kernel.modifyTask, setTask_self] using hf
  · simp only [Kernel.modifyTask, setTask_of_ne _ hj]

theorem schedUnblock (k : Kernel) (i : ℕ) : OwnTableOnly k (k.schedUnblock i) := by
  unfold Kernel.schedUnblock
  split_ifs with hb
  · exact modifyTask k i _ (fun _ => rfl) (by simp [hb])
  · exact refl k

theorem schedSchedule (k : Kernel) : OwnTableOnly k k.schedSchedule := by
  unfold Kernel.schedSchedule
  cases hn : k.schedNext with
  | none => exact refl k
  | some n =>
    have hrun := runnable_of_schedNext hn
    dsimp only
    by_cases hcur : n = k.current
    · rw [if_pos hcur]
      exact refl k
    · rw [if_neg hcur]
      have hprev : OwnTableOnly k (if (k.tasks k.current).state = .running then
          k.modifyTask k.current fun t => { t with state := .ready } else k) := by
        split_ifs with hr
        · exact modifyTask k _ _ (fun _ => rfl) (by simp [hr])
        · exact refl k
      have htask : (if (k.tasks k.current).state = .running then
          k.modifyTask k.current fun t => { t with state := .ready } else k).tasks n =
            k.tasks n := by
        split_ifs
        · simp only [Kernel.modifyTask, setTask_of_ne _ hcur]
        · rfl
      have hlive : (k.tasks n).state ≠ .unused := by
        rcases hrun with h | h <;> simp [h]
      have hcurrent : (if (k.tasks k.current).state = .running then
          k.modifyTask k.current fun t => { t with state := .ready } else k).current =
            k.current := by
        split_ifs <;> rfl
      exact (hprev.trans hcurrent (modifyTask _ n (fun t => { t with state := .running })
        (fun _ => rfl) (by simp [htask, hlive]))).trans hcurrent (of_eq rfl rfl rfl)

theorem schedBlock (hlive : (k.tasks k.current).state ≠ .unused) : OwnTableOnly k k.schedBlock := by
  unfold Kernel.schedBlock
  have hblock := modifyTask k k.current (fun t => { t with state := .blocked }) (fun _ => rfl)
    (by simp [hlive])
  exact hblock.trans rfl (schedSchedule _)

theorem linkWaiter (tail : Option ℕ) (hlive : (k.tasks k.current).state ≠ .unused) :
    OwnTableOnly k (k.linkWaiter tail k.current) ∧
      (k.linkWaiter tail k.current).current = k.current := by
  have h₁ := modifyTask k k.current (fun th => { th with next := none }) (fun _ => rfl) Iff.rfl
  cases tail with
  | none =>
    refine ⟨h₁.trans rfl (modifyTask _ k.current (fun th => { th with state := .blocked })
      (fun _ => rfl) ?_), rfl⟩
    simp [(h₁.unused k.current).not.mpr hlive]
  | some w =>
    have h₂ := h₁.trans rfl (modifyTask _ w (fun th => { th with next := some k.current })
      (fun _ => rfl) Iff.rfl)
    refine ⟨h₂.trans rfl (modifyTask _ k.current (fun th => { th with state := .blocked })
      (fun _ => rfl) ?_), rfl⟩
    simp [(h₂.unused k.current).not.mpr hlive]

end OwnTableOnly

namespace SameThreads

theorem refl (k : Kernel) : SameThreads k k := ⟨rfl, rfl, rfl, rfl⟩

theorem trans (h : SameThreads k k') (h' : SameThreads k' k'') : SameThreads k k'' :=
  ⟨h'.tasks.trans h.tasks, h'.current.trans h.current, h'.nextPid.trans h.nextPid,
    h'.ipcExt.trans h.ipcExt⟩

theorem ownTableOnly (h : SameThreads k k') : OwnTableOnly k k' :=
  .of_eq h.tasks h.nextPid h.ipcExt

theorem nsExtend {cur next : ℕ} {token : Bytes} (h : k.nsExtend cur token = some (next, k')) :
    SameThreads k k' ∧ k'.endpoints = k.endpoints := by
  unfold Kernel.nsExtend at h
  cases hc : k.nsChild cur token with
  | some i =>
    simp only [hc, Option.some.injEq, Prod.mk.injEq] at h
    obtain ⟨_, rfl⟩ := h
    exact ⟨refl k, rfl⟩
  | none =>
    simp only [hc] at h
    split_ifs at h
    obtain ⟨_, rfl⟩ := Prod.mk.inj (Option.some.inj h)
    exact ⟨⟨rfl, rfl, rfl, rfl⟩, rfl⟩

theorem nsInsertTokens (handle owner : ℕ) (tokens : List Bytes) (k : Kernel) (cur : ℕ) :
    SameThreads k (nsInsertTokens handle owner k cur tokens).2 ∧
      (Kernel.nsInsertTokens handle owner k cur tokens).2.endpoints = k.endpoints := by
  induction tokens generalizing k cur with
  | nil => exact ⟨⟨rfl, rfl, rfl, rfl⟩, rfl⟩
  | cons token rest ih =>
    unfold Kernel.nsInsertTokens
    cases hx : k.nsExtend cur token with
    | none => exact ⟨refl k, rfl⟩
    | some r =>
      obtain ⟨hsame, hends⟩ := nsExtend hx
      exact ⟨hsame.trans (ih r.2 r.1).1, (ih r.2 r.1).2.trans hends⟩

theorem ipcNsInsert (k : Kernel) (name : Bytes) (handle owner : ℕ) :
    SameThreads k (k.ipcNsInsert name handle owner).2 ∧
      (k.ipcNsInsert name handle owner).2.endpoints = k.endpoints := by
  unfold Kernel.ipcNsInsert
  cases k.nsRoot with
  | some root => exact nsInsertTokens handle owner _ k root
  | none =>
    have hroot : SameThreads k ({ k with nsRoot := some 0 }.setNsEntry 0 {}) :=
      ⟨rfl, rfl, rfl, rfl⟩
    obtain ⟨hsame, hends⟩ := nsInsertTokens handle owner (nsTokens name)
      ({ k with nsRoot := some 0 }.setNsEntry 0 {}) 0
    exact ⟨hroot.trans hsame, hends⟩

end SameThreads

namespace Inert

theorem refl (k : Kernel) : Inert k k := ⟨.refl k, rfl⟩

theorem trans (h : Inert k k') (h' : Inert k' k'') : Inert k k'' :=
  ⟨h.toSameThreads.trans h'.toSameThreads, h'.names.trans h.names⟩

theorem ipcAllocEndpoint {i : ℕ} (h : k.ipcAllocEndpoint = some (i, k')) : Inert k k' := by
  obtain ⟨j, _, he⟩ := Option.map_eq_some_iff.mp h
  obtain ⟨_, rfl⟩ := Prod.mk.inj he
  exact ⟨⟨rfl, rfl, rfl, rfl⟩, rfl⟩

theorem ipcAllocPort {i : ℕ} (h : k.ipcAllocPort = some (i, k')) : Inert k k' := by
  obtain ⟨j, _, he⟩ := Option.map_eq_some_iff.mp h
  obtain ⟨_, rfl⟩ := Prod.mk.inj he
  exact ⟨⟨rfl, rfl, rfl, rfl⟩, rfl⟩

theorem ringAlloc (k : Kernel) (ep : ℕ) : Inert k (k.ringAlloc ep) := by
  unfold Kernel.ringAlloc
  cases k.arena.sageMalloc (ipcMsgSize * ipcRingSize) with
  | none => exact ⟨⟨rfl, rfl, rfl, rfl⟩, rfl⟩
  | some r => exact ⟨⟨rfl, rfl, rfl, rfl⟩, rfl⟩

theorem modifyEndpoint (k : Kernel) (ep : ℕ) (f : IpcEndpoint → IpcEndpoint) :
    Inert k (k.modifyEndpoint ep f) := ⟨⟨rfl, rfl, rfl, rfl⟩, rfl⟩

theorem killPair (k : Kernel) (send recv : ℕ) : Inert k (k.killPair send recv) :=
  (modifyEndpoint k send _).trans (modifyEndpoint _ recv _)

theorem linkPair (k : Kernel) (send recv : ℕ) : Inert k (k.linkPair send recv) :=
  ⟨⟨rfl, rfl, rfl, rfl⟩, rfl⟩

theorem allocRings (k : Kernel) (send recv : ℕ) : Inert k (k.allocRings send recv).2 := by
  unfold Kernel.allocRings
  have hsize := (modifyEndpoint k send fun e => { e with ringSize := ipcRingSize }).trans
    (modifyEndpoint _ recv fun e => { e with ringSize := ipcRingSize })
  have hrings := (hsize.trans (ringAlloc _ send)).trans (ringAlloc _ recv)
  have hfree : ∀ k : Kernel, Inert k ((k.ringFree send).ringFree recv) := fun _ =>
    ⟨⟨rfl, rfl, rfl, rfl⟩, rfl⟩
  dsimp only
  split_ifs
  · exact (hrings.trans (hfree _)).trans (killPair _ send recv)
  · exact hrings

theorem ipcLifecycleTransition (k : Kernel) (ep : ℕ) (target : IpcLifecycleState) :
    Inert k (k.ipcLifecycleTransition ep target).2 := by
  unfold Kernel.ipcLifecycleTransition
  dsimp only
  split_ifs <;> exact ⟨⟨rfl, rfl, rfl, rfl⟩, rfl⟩

theorem ipcMsgDequeue (k : Kernel) (ep : ℕ) : Inert k (k.ipcMsgDequeue ep).2.2 := by
  unfold Kernel.ipcMsgDequeue
  dsimp only
  split_ifs <;> exact ⟨⟨rfl, rfl, rfl, rfl⟩, rfl⟩

theorem destroyObject (k : Kernel) (cap : IpcCapability) : Inert k (k.destroyObject cap) := by
  unfold Kernel.destroyObject
  cases cap.objectType <;> exact ⟨⟨rfl, rfl, rfl, rfl⟩, rfl⟩

end Inert

namespace Suspended
variable {p : ℕ}

theorem congr (h : k.Suspended p) (ht : k'.tasks = k.tasks) (hc : k'.current = k.current) :
    k'.Suspended p := by
  unfold Suspended
  rw [ht, hc]
  exact h

variable {i : ℕ}
section
variable (h : k.Suspended p)

include h

theorem modifyTask {f : Thread → Thread}
    (hf : i = p → (f (k.tasks p)).state = .blocked) : (k.modifyTask i f).Suspended p := by
  refine ⟨?_, h.2⟩
  by_cases hi : p = i
  · subst hi
    rw [Kernel.modifyTask, setTask_self]
    exact hf rfl
  · rw [Kernel.modifyTask, setTask_of_ne _ hi]
    exact h.1

theorem modifyTask_of_ne (hi : i ≠ p) (f : Thread → Thread) :
    (k.modifyTask i f).Suspended p := h.modifyTask fun he => absurd he hi

theorem schedSchedule : k.schedSchedule.Suspended p := by
  unfold Kernel.schedSchedule
  cases hn : k.schedNext with
  | none => exact h
  | some n =>
    have hne : n ≠ p := by
      rintro rfl
      rcases runnable_of_schedNext hn with hr | hr
      · cases h.1.symm.trans hr
      · cases h.1.symm.trans hr
    dsimp only
    by_cases hcur : n = k.current
    · rw [if_pos hcur]
      exact h
    · rw [if_neg hcur]
      have hprev : (if (k.tasks k.current).state = .running then
          k.modifyTask k.current fun t => { t with state := .ready } else k).Suspended p := by
        split_ifs
        · exact h.modifyTask_of_ne h.2 _
        · exact h
      have hnext := hprev.modifyTask_of_ne hne fun t => { t with state := .running }
      exact ⟨hnext.1, hne⟩

theorem schedBlock : k.schedBlock.Suspended p :=
  (h.modifyTask_of_ne h.2 _).schedSchedule

theorem schedUnblock (hi : i ≠ p) : (k.schedUnblock i).Suspended p := by
  unfold Kernel.schedUnblock
  split_ifs
  · exact h.modifyTask_of_ne hi _
  · exact h

theorem linkWaiter (tail : Option ℕ) {t : ℕ} (ht : t ≠ p) : (k.linkWaiter tail t).Suspended p := by
  unfold Kernel.linkWaiter
  have hlink := h.modifyTask_of_ne ht fun th => { th with next := none }
  cases tail with
  | none => exact hlink.modifyTask_of_ne ht _
  | some w =>
    have hnext := hlink.modifyTask (i := w) (f := fun th => { th with next := some t })
      fun _ => hlink.1
    exact hnext.modifyTask_of_ne ht _

end
end Suspended
end Kernel
end SageOS
