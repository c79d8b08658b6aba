import SageOS.EndpointQueue

/-!
# Lifecycle calls and queues

A lifecycle call moves the endpoint that its capability names to another state and leaves every
queue as it is. A request goes to the endpoint that the handle names; the answer is received from
whatever endpoint the reply capability names.
-/
namespace SageOS.Kernel
open Function Option
variable {k : Kernel} {ep handle : ℕ}

/-- A valid capability of the caller names `ep` as an endpoint or a channel. -/
def Names (k : Kernel) (handle ep : ℕ) (right : UInt32) : Prop :=
  ∃ c, k.resolveWith handle right = some c ∧ isEndpointLike c ∧ c.objectId = ep

def setState (k : Kernel) (ep : ℕ) (s : IpcLifecycleState) : ℕ → QueueView :=
  update k.queues ep ((k.queues ep).withState s)

theorem ipcLifecycleTransition_of_active {target : IpcLifecycleState}
    (ht : target = .paused ∨ target = .draining) (hs : (k.queues ep).state = .active) :
    (k.ipcLifecycleTransition ep target).1 = true ∧
      (k.ipcLifecycleTransition ep target).2.queues = k.setState ep target := by
  have hs' : some IpcLifecycleState.active = some (k.endpoints ep).state := congrArg some hs.symm
  unfold ipcLifecycleTransition
  rcases ht with rfl | rfl <;> dsimp only <;> rw [if_pos hs'] <;>
    exact ⟨rfl, queues_withState k ep _⟩

theorem ipcLifecycleTransition_of_ne {target : IpcLifecycleState}
    (ht : target = .paused ∨ target = .draining) (hs : (k.queues ep).state ≠ .active) :
    k.ipcLifecycleTransition ep target = (false, k) := by
  have hs' : some IpcLifecycleState.active ≠ some (k.endpoints ep).state :=
    fun h => hs (some.inj h).symm
  rcases ht with rfl | rfl <;> exact if_neg hs'

variable {c : IpcCapability}

theorem queues_destroyObject (h : isEndpointLike c) :
    (k.destroyObject c).queues = k.setState c.objectId .dead := by
  have hset : ((k.ringFree c.objectId).modifyEndpoint c.objectId fun e =>
      { e with state := .dead, msgRing := none }).queues = k.setState c.objectId .dead := by
    unfold modifyEndpoint
    rw [queues_setEndpoint]
    rfl
  unfold destroyObject
  rcases h with h | h <;> rw [h] <;> exact hset

theorem queues_destroyObject_of_not (h : ¬ isEndpointLike c) :
    (k.destroyObject c).queues = k.queues := by
  unfold destroyObject
  cases hc : c.objectType with
  | endpoint => exact absurd (.inl hc) h
  | channel => exact absurd (.inr hc) h
  | _ => rfl

theorem Names.destroy (h : k.Names handle ep ipcCapRightRevoke) :
    (k.sysIpcObjectDestroy handle).2.queues = k.setState ep .dead := by
  obtain ⟨c, hc, hlike, rfl⟩ := h
  unfold sysIpcObjectDestroy
  rw [hc]
  exact queues_destroyObject hlike

theorem sysIpcObjectDestroy_cases (k : Kernel) (handle : ℕ) :
    (k.sysIpcObjectDestroy handle).2.queues = k.queues ∨
      ∃ ep, k.Names handle ep ipcCapRightRevoke := by
  cases hc : k.resolveWith handle ipcCapRightRevoke with
  | none =>
    unfold sysIpcObjectDestroy
    rw [hc]
    exact .inl rfl
  | some c =>
    by_cases hlike : isEndpointLike c
    · exact .inr ⟨c.objectId, c, hc, hlike, rfl⟩
    · unfold sysIpcObjectDestroy
      rw [hc]
      exact .inl (queues_destroyObject_of_not hlike)

theorem queues_drainPass (k : Kernel) (ep : ℕ) : (k.drainPass ep).2.queues =
    if (k.queues ep).msgCount = 0 ∧ (k.queues ep).state = .draining then k.setState ep .dead
    else k.queues := by
  unfold drainPass
  by_cases hempty : (k.endpoints ep).msgCount = 0
  · rw [if_pos hempty]
    by_cases hs : (k.endpoints ep).state = .draining
    · rw [if_pos hs, if_pos ⟨hempty, hs⟩]
      exact queues_withState k ep .dead
    · rw [if_neg hs, if_neg fun h => hs h.2]
  · rw [if_neg hempty, if_neg fun h => hempty h.1]
    exact queues_congr (OnlyThreads.schedSchedule k).endpoints

theorem queues_drained {k₁ : Kernel} (hk₁ : k₁.queues = k.setState ep .draining) :
    (k₁.drainPass ep).2.queues =
      if (k.queues ep).msgCount = 0 then k.setState ep .dead else k.setState ep .draining := by
  have hdead : k₁.setState ep .dead = k.setState ep .dead := by
    unfold setState
    rw [hk₁, setState, update_idem, update_self]
    rfl
  have hview : k₁.queues ep = (k.queues ep).withState .draining := by
    rw [hk₁, setState, update_self]
  rw [queues_drainPass, hdead, hview]
  by_cases hempty : (k.queues ep).msgCount = 0
  · rw [if_pos hempty]
    exact if_pos ⟨hempty, rfl⟩
  · rw [if_neg hempty, if_neg fun h => hempty h.1, hk₁]

theorem sysIpcObjectDrain_of_active
    (hc : k.resolveWith handle ipcCapRightRevoke = some c) (hlike : isEndpointLike c)
    (hs : (k.queues c.objectId).state = .active) : (k.sysIpcObjectDrain handle).2.queues =
      if (k.queues c.objectId).msgCount = 0 then k.setState c.objectId .dead
      else k.setState c.objectId .draining := by
  obtain ⟨hok, hq⟩ := ipcLifecycleTransition_of_active
    (.inr (Eq.refl IpcLifecycleState.draining)) hs
  unfold sysIpcObjectDrain
  simp only [hc, if_pos hlike, hok, if_true]
  exact queues_drained hq

theorem sysIpcObjectDrain_of_ne (hc : k.resolveWith handle ipcCapRightRevoke = some c)
    (hs : isEndpointLike c → (k.queues c.objectId).state ≠ .active) :
    (k.sysIpcObjectDrain handle).2 = k := by
  unfold sysIpcObjectDrain
  simp only [hc]
  by_cases hlike : isEndpointLike c
  · rw [if_pos hlike, ipcLifecycleTransition_of_ne (.inr rfl) (hs hlike)]
    rfl
  · rw [if_neg hlike]

theorem queues_sysIpcObjectResume (hc : k.ownTable.resolve handle = some c)
    (hlike : isEndpointLike c) (hs : (k.queues c.objectId).state = .paused) :
    (k.sysIpcObjectResume handle).2.queues = k.setState c.objectId .active := by
  have hok : isEndpointLike c ∧ (k.endpoints c.objectId).state = .paused := ⟨hlike, hs⟩
  unfold sysIpcObjectResume
  simp only [hc, if_pos hok]
  exact queues_withState k c.objectId .active

theorem queues_sysIpcRecv (k : Kernel) (handle : ℕ) (flags : UInt32) :
    (k.sysIpcRecv handle flags).2.queues = k.queues ∨
      ∃ ep, (k.queues ep).msgCount ≠ 0 ∧ (k.sysIpcRecv handle flags).2.queues =
        update k.queues ep (k.queues ep).received := by
  unfold sysIpcRecv
  cases k.resolveWith handle ipcCapRightRecv with
  | none => exact .inl rfl
  | some c =>
    have hdeq := queues_ipcMsgDequeue k c.objectId
    by_cases hempty : (k.queues c.objectId).msgCount = 0
    · rw [if_pos hempty] at hdeq
      left
      dsimp only
      split_ifs
      · rfl
      · exact hdeq
      · exact (queues_congr (OnlyThreads.schedBlock _).endpoints).trans
          ((queues_ipcWaitEnqueue _ _ _).trans hdeq)
      · exact hdeq
    · rw [if_neg hempty] at hdeq
      dsimp only
      split_ifs
      · exact .inl rfl
      · exact .inr ⟨c.objectId, hempty, hdeq⟩
      · exact .inr ⟨c.objectId, hempty, (queues_congr (OnlyThreads.schedBlock _).endpoints).trans
          ((queues_ipcWaitEnqueue _ _ _).trans hdeq)⟩
      · exact .inr ⟨c.objectId, hempty, hdeq⟩

/-- A call through the handle adds its request to the queue of `ep`. -/
structure CallAccepts (k : Kernel) (handle : ℕ) (req : IpcMsg) (ep : ℕ) : Prop
    extends k.Accepts handle req 0 ep where
  right : (k.resolveWith handle ipcCapRightCall).isSome
  peer : (k.endpoints ep).peerCap < ipcMaxEndpoints

theorem CallAccepts.call {req : IpcMsg} (h : k.CallAccepts handle req ep) {q : ℕ → QueueView}
    (hq : q = update k.queues ep (k.queues ep).sent) :
    (k.sysIpcCall handle req).2.queues = q ∨ ∃ j, (q j).msgCount ≠ 0 ∧
      (k.sysIpcCall handle req).2.queues = update q j (q j).received := by
  obtain ⟨hret, hsend⟩ := h.send
  obtain ⟨c, hc, htype, rfl⟩ := h.cap
  obtain ⟨c', hc'⟩ := isSome_iff_exists.mp h.right
  have hsame : c' = c := some.inj
    ((filter_eq_some_iff.mp hc').1.symm.trans (filter_eq_some_iff.mp hc).1)
  subst hsame
  rw [← hq] at hsend
  unfold sysIpcCall
  simp only [hc', hret]
  rw [if_neg (by simp [htype]), if_neg (not_le.mpr h.peer), if_neg (by decide)]
  cases (k.sysIpcSend handle req 0).2.replyCap _ with
  | none => exact .inl hsend
  | some reply =>
    rw [← hsend]
    exact queues_sysIpcRecv _ reply 0

theorem queues_sysIpcCall_of_not {req : IpcMsg} (h : ∀ ep, ¬ k.CallAccepts handle req ep) :
    (k.sysIpcCall handle req).2.queues = k.queues := by
  unfold sysIpcCall
  cases hc : k.resolveWith handle ipcCapRightCall with
  | none => rfl
  | some c =>
    dsimp only
    split_ifs with htype hpeer hret
    · rfl
    · rfl
    · by_cases hacc : ∃ ep, k.Accepts handle req 0 ep
      · obtain ⟨ep, hep⟩ := hacc
        rw [hep.send.1] at hret
        exact absurd hret (by decide)
      · exact (sysIpcSend_of_not_accepts (not_exists.mp hacc)).2
    · by_cases hacc : ∃ ep, k.Accepts handle req 0 ep
      · obtain ⟨ep, hep⟩ := hacc
        obtain ⟨c', hc', -, rfl⟩ := hep.cap
        have hsame : c' = c := some.inj
          ((filter_eq_some_iff.mp hc').1.symm.trans (filter_eq_some_iff.mp hc).1)
        subst hsame
        exact absurd ⟨hep, by simp [hc], not_le.mp hpeer⟩ (h c'.objectId)
      · rw [(sysIpcSend_of_not_accepts (not_exists.mp hacc)).1] at hret
        exact absurd (by decide) hret

end SageOS.Kernel
