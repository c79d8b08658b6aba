import SageOS.WaitQueue

/-!
# What a waiting receiver depends on

A receiver at an endpoint depends on whether its thread is blocked, on its link, and on the state,
the first waiter and the message count of the endpoint. The sections of the calls that run under a
lock, the writes of thread states and the scheduler act on this view alone.
-/
namespace SageOS

structure RecvView where
  blocked : Bool
  next : Option ℕ
  state : IpcLifecycleState
  waitHead : Option ℕ
  msgCount : ℕ

namespace Kernel
variable (r ep : ℕ)

def recvView (k : Kernel) : RecvView where
  blocked := (k.tasks r).state = .blocked
  next := k.waitNext r
  state := (k.endpoints ep).state
  waitHead := (k.endpoints ep).waitHead
  msgCount := (k.endpoints ep).msgCount

variable {r ep}

theorem recvView_congr {k k' : Kernel} (ht : k'.tasks r = k.tasks r)
    (he : k'.endpoints ep = k.endpoints ep) : k'.recvView r ep = k.recvView r ep := by
  unfold recvView waitNext
  rw [ht, he]

theorem recvView_modifyTask_of_ne (k : Kernel) {i : ℕ} (hi : i ≠ r) (f : Thread → Thread) :
    (k.modifyTask i f).recvView r ep = k.recvView r ep :=
  recvView_congr (Function.update_of_ne hi.symm _ _) rfl

theorem recvView_setState (k : Kernel) (s : ThreadState) :
    (k.modifyTask r fun t => { t with state := s }).recvView r ep =
      { k.recvView r ep with blocked := s = .blocked } := by
  unfold recvView waitNext modifyTask setTask
  simp

theorem recvView_schedUnblock (k : Kernel) (i : ℕ) : (k.schedUnblock i).recvView r ep =
    if i = r then { k.recvView r ep with blocked := false } else k.recvView r ep := by
  unfold schedUnblock
  by_cases hi : i = r
  · subst hi
    rw [if_pos rfl]
    split_ifs with hb
    · rw [recvView_setState]
      rfl
    · unfold recvView
      rw [decide_eq_false hb]
  · split_ifs
    · exact recvView_modifyTask_of_ne k hi _
    · rfl

theorem recvView_schedSchedule (k : Kernel) : k.schedSchedule.recvView r ep = k.recvView r ep := by
  have hstate : ∀ (k : Kernel) (i : ℕ) (s : ThreadState), s ≠ .blocked →
      (k.tasks i).state ≠ .blocked →
      (k.modifyTask i fun t => { t with state := s }).recvView r ep = k.recvView r ep := by
    intro k i s hs hi
    by_cases hr : i = r
    · subst hr
      rw [recvView_setState]
      unfold recvView
      rw [decide_eq_false hs, decide_eq_false hi]
    · exact recvView_modifyTask_of_ne k hr _
  unfold schedSchedule
  cases hn : k.schedNext with
  | none => rfl
  | some n =>
    have hrun : k.runnable n := of_decide_eq_true
      (List.find?_some (p := fun i => decide (k.runnable i)) hn)
    have hnb : (k.tasks n).state ≠ .blocked := by
      rcases hrun with h | h <;> rw [h] <;> exact nofun
    dsimp only
    by_cases hcur : n = k.current
    · rw [if_pos hcur]
    · split_ifs with hr
      · have hsame : (k.modifyTask k.current fun t => { t with state := .ready }).tasks n =
            k.tasks n := Function.update_of_ne hcur _ _
        refine (hstate _ n .running nofun (hsame ▸ hnb)).trans ?_
        apply hstate k k.current .ready nofun
        rw [hr]
        exact nofun
      · exact hstate k n .running nofun hnb

theorem recvView_ipcMsgDequeue (k : Kernel) : (k.ipcMsgDequeue ep).2.2.recvView r ep =
    { k.recvView r ep with msgCount := (k.recvView r ep).msgCount - 1 } := by
  unfold ipcMsgDequeue
  by_cases hempty : (k.endpoints ep).msgCount = 0
  · rw [if_pos hempty]
    unfold recvView
    dsimp only
    rw [hempty]
  · rw [if_neg hempty]
    unfold recvView waitNext Kernel.setEndpoint
    simp

variable {k : Kernel}

theorem recvView_ipcWaitEnqueue (h : (k.recvView r ep).waitHead = none) :
    (k.ipcWaitEnqueue ep r).recvView r ep =
      { k.recvView r ep with blocked := true, next := none, waitHead := some r } := by
  have hhead : (k.endpoints ep).waitHead = none := h
  unfold ipcWaitEnqueue
  rw [if_pos hhead]
  unfold recvView waitNext linkWaiter Kernel.setEndpoint modifyTask setTask
  simp

theorem recvView_ipcWakeOne {v : RecvView} (hv : k.recvView r ep = v)
    (hhead : v.waitHead = none ∨ v.waitHead = some r ∧ v.next = none) :
    (k.ipcWakeOne ep).recvView r ep =
      { v with blocked := v.blocked && (v.waitHead = none), waitHead := none } := by
  subst hv
  unfold ipcWakeOne
  rcases hhead with hnone | ⟨hsome, hnext⟩
  · have hnone' : (k.endpoints ep).waitHead = none := hnone
    unfold recvView
    simp [hnone']
  · have hsome' : (k.endpoints ep).waitHead = some r := hsome
    have hnext' : (k.tasks r).next = none := hnext
    rw [hsome']
    rw [recvView_schedUnblock, if_pos rfl]
    unfold recvView waitNext modifyEndpoint Kernel.setEndpoint
    simp [hsome', hnext']

theorem recvView_ipcMsgEnqueue (msg : IpcMsg) (hs : (k.recvView r ep).state = .active)
    (hhead : (k.recvView r ep).waitHead = none ∨
      (k.recvView r ep).waitHead = some r ∧ (k.recvView r ep).next = none) :
    (k.ipcMsgEnqueue ep msg).2.recvView r ep = k.recvView r ep ∨
      (k.ipcMsgEnqueue ep msg).2.recvView r ep = { k.recvView r ep with
          blocked := (k.recvView r ep).blocked && ((k.recvView r ep).waitHead = none)
          waitHead := none
          msgCount := (k.recvView r ep).msgCount + 1 } := by
  have hopen : (k.endpoints ep).state.isOpen = true := by
    rw [show (k.endpoints ep).state = .active from hs]
    rfl
  unfold ipcMsgEnqueue
  rw [if_neg (by simp [hopen])]
  split_ifs with hfull
  · left
    unfold recvView waitNext Kernel.setEndpoint
    simp
  · right
    have hadd : ∀ (mem : ℕ → ℕ → IpcMsg) (e : IpcEndpoint), e.state = (k.endpoints ep).state →
        e.waitHead = (k.endpoints ep).waitHead → e.msgCount = (k.endpoints ep).msgCount + 1 →
        ({ k with ringMem := mem }.setEndpoint ep e).recvView r ep =
          { k.recvView r ep with msgCount := (k.recvView r ep).msgCount + 1 } := by
      intro mem e hstate hwait hcount
      unfold recvView waitNext Kernel.setEndpoint
      simp [hstate, hwait, hcount]
    refine recvView_ipcWakeOne (v := { k.recvView r ep with
      msgCount := (k.recvView r ep).msgCount + 1 }) ?_ hhead
    apply hadd <;> rfl

end Kernel
end SageOS
