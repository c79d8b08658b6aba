import SageOS.EndpointQueue
import SageOS.LinkQueues

/-!
# Wait queues

The threads that wait at endpoints are linked through one field of the thread. A send takes the
first waiter of its endpoint out, and a receive that has to wait appends the caller. Both keep the
queues sound, the second one only if the caller is in no queue. An exiting thread wakes all blocked
threads and leaves them in their queues, so that one of them can be appended again.
-/
namespace SageOS
open LinkQueues LinkedChain Function
namespace Kernel

def waitNext (k : Kernel) (t : ℕ) : Option ℕ := (k.tasks t).next

def waitEnds (k : Kernel) (ep : ℕ) : Option ℕ × Option ℕ :=
  ((k.endpoints ep).waitHead, (k.endpoints ep).waitTail)

/-- Every wait list is finite and ends at its tail, and no thread is twice in the lists. -/
def WaitSound (k : Kernel) : Prop := ∃ lists, Queues k.waitNext k.waitEnds lists

def Waits (k : Kernel) (t : ℕ) : Prop :=
  ∃ ep l, Linked k.waitNext (k.waitEnds ep).1 l ∧ t ∈ l

/-- The wait lists of `k'` are sound and hold threads that waited in `k` and perhaps `t`. -/
def WaitsFrom (k : Kernel) (t : ℕ) (k' : Kernel) : Prop :=
  ∃ lists, Queues k'.waitNext k'.waitEnds lists ∧ ∀ ep, ∀ u ∈ lists ep, k.Waits u ∨ u = t

variable {k k' : Kernel}

theorem WaitSound.waitsFrom (hk : k.WaitSound) (t : ℕ) : WaitsFrom k t k := by
  obtain ⟨lists, hlists⟩ := hk
  exact ⟨lists, hlists, fun ep u hu => .inl ⟨ep, lists ep, hlists.linked ep, hu⟩⟩

theorem WaitsFrom.sound {t : ℕ} (h : WaitsFrom k t k') : k'.WaitSound :=
  h.imp fun _ hlists => hlists.1

theorem WaitsFrom.waits {t u : ℕ} (h : WaitsFrom k t k') (hu : k'.Waits u) :
    k.Waits u ∨ u = t := by
  obtain ⟨lists, hlists, hfrom⟩ := h
  obtain ⟨ep, l, hl, hmem⟩ := hu
  exact hfrom ep u (hl.unique (hlists.linked ep) ▸ hmem)

theorem waitEnds_setEndpoint (k : Kernel) (ep : ℕ) (e : IpcEndpoint) :
    (k.setEndpoint ep e).waitEnds = update k.waitEnds ep (e.waitHead, e.waitTail) := by
  funext j
  unfold waitEnds Kernel.setEndpoint
  dsimp only
  rw [update_apply, update_apply]
  split_ifs <;> rfl

/-- The links and the ends of all lists are the same. -/
structure SameWaits (k k' : Kernel) : Prop where
  next : k'.waitNext = k.waitNext
  ends : k'.waitEnds = k.waitEnds

namespace SameWaits

theorem refl (k : Kernel) : SameWaits k k := ⟨rfl, rfl⟩

theorem trans {k'' : Kernel} (h : SameWaits k k') (h' : SameWaits k' k'') : SameWaits k k'' :=
  ⟨h'.next.trans h.next, h'.ends.trans h.ends⟩

theorem sound (h : SameWaits k k') (hk : k.WaitSound) : k'.WaitSound := by
  obtain ⟨lists, hlists⟩ := hk
  exact ⟨lists, h.next ▸ h.ends ▸ hlists⟩

theorem waits (h : SameWaits k k') (u : ℕ) : k'.Waits u ↔ k.Waits u := by
  unfold Waits
  rw [h.next, h.ends]

theorem waitsFrom {k₀ : Kernel} {t : ℕ} (h : SameWaits k k') (hk : WaitsFrom k₀ t k) :
    WaitsFrom k₀ t k' := by
  obtain ⟨lists, hlists, hfrom⟩ := hk
  exact ⟨lists, h.next ▸ h.ends ▸ hlists, hfrom⟩

theorem of_eq (ht : k'.tasks = k.tasks) (he : k'.endpoints = k.endpoints) : SameWaits k k' := by
  constructor
  · unfold waitNext
    rw [ht]
  · unfold waitEnds
    rw [he]

theorem setState (k : Kernel) (i : ℕ) (s : ThreadState) :
    SameWaits k (k.modifyTask i fun t => { t with state := s }) := by
  refine ⟨funext fun t => ?_, rfl⟩
  change (update k.tasks i _ t).next = (k.tasks t).next
  rw [update_apply]
  split_ifs with ht
  · rw [ht]
  · rfl

theorem setEndpoint {ep : ℕ} {e : IpcEndpoint}
    (he : (e.waitHead, e.waitTail) = k.waitEnds ep) : SameWaits k (k.setEndpoint ep e) := by
  refine ⟨rfl, ?_⟩
  rw [waitEnds_setEndpoint, he, update_eq_self]

theorem schedSchedule (k : Kernel) : SameWaits k k.schedSchedule := by
  unfold Kernel.schedSchedule
  cases k.schedNext with
  | none => exact refl k
  | some n =>
    dsimp only
    by_cases hn : n = k.current
    · rw [if_pos hn]
      exact refl k
    · rw [if_neg hn]
      split_ifs
      · exact ((setState k k.current .ready).trans (setState _ n .running)).trans (of_eq rfl rfl)
      · exact (setState k n .running).trans (of_eq rfl rfl)

theorem schedBlock (k : Kernel) : SameWaits k k.schedBlock :=
  (setState k k.current .blocked).trans (schedSchedule _)

theorem schedUnblock (k : Kernel) (i : ℕ) : SameWaits k (k.schedUnblock i) := by
  unfold Kernel.schedUnblock
  split_ifs
  · exact setState k i .ready
  · exact refl k

theorem wakeAll (k : Kernel) : SameWaits k k.wakeAll := by
  refine ⟨funext fun t => ?_, rfl⟩
  change (if t < maxTasks ∧ (k.tasks t).state = .blocked then _ else k.tasks t).next = _
  split_ifs <;> rfl

theorem schedExit (k : Kernel) : SameWaits k k.schedExit :=
  ((setState k k.current .terminated).trans (wakeAll _)).trans (schedSchedule _)

theorem translateCaps (transfer : Bool) (handles : List ℕ) (k : Kernel) :
    SameWaits k (translateCaps transfer k handles).2 := by
  induction handles generalizing k with
  | nil => exact refl k
  | cons h rest ih =>
    unfold Kernel.translateCaps
    split_ifs
    · exact refl k
    · have hset : SameWaits k (k.setOwnTable (k.ownTable.freeSlot h)) := of_eq rfl rfl
      exact hset.trans (ih _)
    · exact ih k

theorem ipcMsgDequeue (k : Kernel) (ep : ℕ) : SameWaits k (k.ipcMsgDequeue ep).2.2 := by
  unfold Kernel.ipcMsgDequeue
  by_cases hempty : (k.endpoints ep).msgCount = 0
  · rw [if_pos hempty]
    exact refl k
  · rw [if_neg hempty]
    apply setEndpoint
    rfl

end SameWaits

namespace WaitSound

theorem setEndpoint (hk : k.WaitSound) {ep : ℕ} {e : IpcEndpoint}
    (he : (e.waitHead, e.waitTail) = k.waitEnds ep) : (k.setEndpoint ep e).WaitSound :=
  (SameWaits.setEndpoint he).sound hk

theorem ipcWakeOne (hk : k.WaitSound) (ep : ℕ) : (k.ipcWakeOne ep).WaitSound := by
  unfold Kernel.ipcWakeOne
  cases hw : (k.endpoints ep).waitHead with
  | none => exact hk
  | some w =>
    obtain ⟨lists, hlists⟩ := hk
    have hpop := hlists.pop (i := ep) hw
    apply (SameWaits.schedUnblock _ w).sound
    refine ⟨update lists ep (lists ep).tail, ?_⟩
    unfold modifyEndpoint
    rw [waitEnds_setEndpoint]
    exact hpop

theorem ipcMsgEnqueue (hk : k.WaitSound) (ep : ℕ) (msg : IpcMsg) :
    (k.ipcMsgEnqueue ep msg).2.WaitSound := by
  unfold Kernel.ipcMsgEnqueue
  dsimp only
  split_ifs
  · exact hk
  · apply hk.setEndpoint
    rfl
  · apply ipcWakeOne
    apply setEndpoint
    · exact hk
    · rfl

theorem sysIpcSend (hk : k.WaitSound) (handle : ℕ) (msg : IpcMsg) (flags : UInt32) :
    (k.sysIpcSend handle msg flags).2.WaitSound := by
  unfold Kernel.sysIpcSend
  cases k.resolveWith handle ipcCapRightSend with
  | none => exact hk
  | some c =>
    have htr := (SameWaits.translateCaps (decide (flags &&& ipcMsgfCapTransfer ≠ 0))
      ((List.range msg.capCount).map msg.caps) k).sound hk
    dsimp only
    split_ifs
    · exact hk
    · exact hk
    · exact htr.ipcMsgEnqueue _ _
    · exact htr
    · exact hk

theorem waitNext_modifyTask (k : Kernel) (i : ℕ) (n : Option ℕ) :
    (k.modifyTask i fun t => { t with next := n }).waitNext = update k.waitNext i n := by
  funext t
  change (update k.tasks i _ t).next = _
  rw [update_apply, update_apply]
  split_ifs <;> rfl

theorem waitNext_linkWaiter (k : Kernel) (tail : Option ℕ) (t : ℕ) :
    (k.linkWaiter tail t).waitNext = pushLink k.waitNext tail t := by
  unfold linkWaiter
  rw [(SameWaits.setState _ t .blocked).next]
  cases tail with
  | none => exact waitNext_modifyTask k t none
  | some w =>
    dsimp only [Option.elim, pushLink]
    rw [waitNext_modifyTask, waitNext_modifyTask]

theorem ipcWaitEnqueue (hk : k.WaitSound) {t : ℕ} (ht : ¬ k.Waits t) (ep : ℕ) :
    WaitsFrom k t (k.ipcWaitEnqueue ep t) := by
  obtain ⟨lists, hlists⟩ := hk
  have hpush := hlists.push (i := ep) fun j hmem => ht ⟨j, lists j, hlists.linked j, hmem⟩
  refine ⟨update lists ep (lists ep ++ [t]), ?_, fun j u hu => ?_⟩
  swap
  · rcases Queues.mem_update hu with hu | ⟨-, rfl⟩
    · exact .inl ⟨j, lists j, hlists.linked j, hu⟩
    · exact .inr rfl
  have hends (tail : Option ℕ) : (k.linkWaiter tail t).waitEnds = k.waitEnds := by
    unfold waitEnds
    rw [(OnlyThreads.linkWaiter _ _ _).endpoints]
  have hnext (tail : Option ℕ) (e : IpcEndpoint) :
      ((k.linkWaiter tail t).setEndpoint ep e).waitNext = pushLink k.waitNext tail t :=
    waitNext_linkWaiter k tail t
  unfold Kernel.ipcWaitEnqueue
  by_cases hhead : (k.endpoints ep).waitHead = none
  · have hfirst : (k.waitEnds ep).1 = none := hhead
    have htail : (k.waitEnds ep).2 = none := by
      have hnil : lists ep = [] := (hlists.linked ep).unique (linked_nil.mpr hhead)
      rw [hlists.last ep, hnil]
      rfl
    rw [if_pos hhead, hnext, waitEnds_setEndpoint, hends]
    rw [htail, if_pos hfirst] at hpush
    exact hpush
  · have hfirst : (k.waitEnds ep).1 ≠ none := hhead
    rw [if_neg hhead, hnext, waitEnds_setEndpoint, hends]
    rw [if_neg hfirst] at hpush
    exact hpush

theorem sysIpcRecv (hk : k.WaitSound) (handle : ℕ) (flags : UInt32)
    (ht : flags &&& ipcMsgfNoblock = 0 → ¬ k.Waits k.current) :
    WaitsFrom k k.current (k.sysIpcRecv handle flags).2 := by
  unfold Kernel.sysIpcRecv
  cases k.resolveWith handle ipcCapRightRecv with
  | none => exact hk.waitsFrom _
  | some c =>
    have hsame := SameWaits.ipcMsgDequeue k c.objectId
    dsimp only
    split_ifs with htype hret hflags
    · exact hk.waitsFrom _
    · exact hsame.waitsFrom (hk.waitsFrom _)
    · apply (SameWaits.schedBlock _).waitsFrom
      obtain ⟨lists, hlists, hfrom⟩ := (hsame.sound hk).ipcWaitEnqueue
        ((hsame.waits _).not.mpr (ht (not_not.mp hflags))) c.objectId
      exact ⟨lists, hlists, fun ep u hu => (hfrom ep u hu).imp_left (hsame.waits u).mp⟩
    · exact hsame.waitsFrom (hk.waitsFrom _)

end WaitSound
end Kernel
end SageOS
