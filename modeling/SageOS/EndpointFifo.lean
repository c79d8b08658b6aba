import SageOS.EndpointQueue
import SageOS.RingBuffer

/-!
# The endpoint queue as a bounded FIFO

The message ring of an endpoint, read as a ring buffer: enqueuing is a push and dequeuing a pop.
Waking a waiter touches neither the ring nor its positions. A run of calls on one endpoint keeps
the messages that were taken in and those that were handed out.
-/
namespace SageOS
open List
namespace Kernel

/-- The queue of an endpoint whose ring lies at `ptr`. -/
def ringAt (k : Kernel) (ep ptr : ℕ) : Ring IpcMsg where
  size := (k.endpoints ep).ringSize
  head := (k.endpoints ep).head
  tail := (k.endpoints ep).tail
  count := (k.endpoints ep).msgCount
  slots := k.ringMem ptr

/-- The messages that wait at an endpoint, the oldest first. -/
def waiting (k : Kernel) (ep : ℕ) : List IpcMsg :=
  (k.ringAt ep ((k.endpoints ep).msgRing.getD 0)).contents

variable {k : Kernel} {ep ptr : ℕ}

theorem ringMem_ipcWakeOne (k : Kernel) (ep : ℕ) : (k.ipcWakeOne ep).ringMem = k.ringMem := by
  unfold ipcWakeOne
  cases (k.endpoints ep).waitHead with
  | none => rfl
  | some w =>
    dsimp only
    unfold schedUnblock
    split_ifs <;> rfl

theorem endpoints_ipcWakeOne (k : Kernel) (ep : ℕ) : ∃ first last, (k.ipcWakeOne ep).endpoints =
      (k.modifyEndpoint ep fun e => { e with waitHead := first, waitTail := last }).endpoints := by
  unfold ipcWakeOne
  cases (k.endpoints ep).waitHead with
  | none =>
    refine ⟨(k.endpoints ep).waitHead, (k.endpoints ep).waitTail, ?_⟩
    exact (Function.update_eq_self ep k.endpoints).symm
  | some w =>
    rw [(OnlyThreads.schedUnblock _ w).endpoints]
    exact ⟨_, _, rfl⟩

/-- What an enqueue that succeeds does to the endpoint and its ring. -/
structure Pushed (k : Kernel) (ep ptr : ℕ) (msg : IpcMsg) (k' : Kernel) : Prop where
  ring : k'.ringAt ep ptr = (k.ringAt ep ptr).push msg
  state : (k'.endpoints ep).state = (k.endpoints ep).state
  msgRing : (k'.endpoints ep).msgRing = (k.endpoints ep).msgRing

theorem pushed_ipcMsgEnqueue (msg : IpcMsg) (hptr : (k.endpoints ep).msgRing = some ptr)
    (hopen : (k.endpoints ep).state.isOpen = true)
    (hroom : (k.endpoints ep).msgCount < (k.endpoints ep).ringSize) :
    Pushed k ep ptr msg (k.ipcMsgEnqueue ep msg).2 := by
  unfold ipcMsgEnqueue
  rw [if_neg (by simp [hopen]), if_neg (by omega), hptr]
  dsimp only [Option.elim]
  generalize hk : Kernel.setEndpoint _ ep _ = k₁
  obtain ⟨first, last, hwake⟩ := endpoints_ipcWakeOne k₁ ep
  have hmem := ringMem_ipcWakeOne k₁ ep
  subst hk
  constructor
  · simp only [ringAt, hwake, hmem, Ring.push]
    simp [modifyEndpoint, setEndpoint]
  · rw [hwake]
    simp [modifyEndpoint, setEndpoint]
  · rw [hwake]
    simp [modifyEndpoint, setEndpoint, hptr]

theorem ipcMsgEnqueue_refused (msg : IpcMsg) (h : ¬ ((k.endpoints ep).state.isOpen ∧
    (k.endpoints ep).msgCount < (k.endpoints ep).ringSize)) :
    ∃ n, (k.ipcMsgEnqueue ep msg).2 = k.modifyEndpoint ep fun e => { e with drops := n } := by
  unfold ipcMsgEnqueue
  by_cases hopen : (k.endpoints ep).state.isOpen = false
  · rw [if_pos hopen]
    use (k.endpoints ep).drops
    change k = { k with endpoints := Function.update k.endpoints ep (k.endpoints ep) }
    rw [Function.update_eq_self]
  · have hfull : (k.endpoints ep).ringSize ≤ (k.endpoints ep).msgCount := by
      by_contra hlt
      exact h ⟨Bool.not_eq_false _ ▸ hopen, by omega⟩
    rw [if_neg hopen, if_pos hfull]
    exact ⟨_, rfl⟩

end Kernel

inductive QueueCall
  | enqueue (msg : IpcMsg)
  | dequeue

structure QueueRun where
  kernel : Kernel
  accepted : List IpcMsg := []
  delivered : List IpcMsg := []

namespace QueueRun
open Kernel
variable {ep : ℕ}

def step (ep : ℕ) (s : QueueRun) : QueueCall → QueueRun
  | .enqueue msg =>
    let r := s.kernel.ipcMsgEnqueue ep msg
    ⟨r.2, if r.1 = 0 then s.accepted ++ [msg] else s.accepted, s.delivered⟩
  | .dequeue =>
    let r := s.kernel.ipcMsgDequeue ep
    ⟨r.2.2, s.accepted, if r.1 = 0 then s.delivered ++ r.2.1.toList else s.delivered⟩

def run (ep : ℕ) (s : QueueRun) (calls : List QueueCall) : QueueRun := calls.foldl (step ep) s

/-- The invariant of a run: what was accepted is what was delivered and what still waits. A closed
endpoint may have lost its ring, but then nothing waits in it. -/
structure Fifo (ep n ptr : ℕ) (s : QueueRun) : Prop where
  size : (s.kernel.endpoints ep).ringSize = n
  sound : (s.kernel.ringAt ep ptr).Sound
  split : s.accepted = s.delivered ++ (s.kernel.ringAt ep ptr).contents
  stored : (s.kernel.endpoints ep).msgRing = some ptr ∨
    (s.kernel.endpoints ep).state.isOpen = false ∧ (s.kernel.endpoints ep).msgCount = 0

namespace Fifo
variable {n ptr : ℕ} {s : QueueRun}

theorem enqueue (h : Fifo ep n ptr s) (msg : IpcMsg) :
    Fifo ep n ptr (s.step ep (.enqueue msg)) := by
  unfold step
  dsimp only
  rw [ipcMsgEnqueue_fst]
  by_cases hok : (s.kernel.endpoints ep).state.isOpen ∧
      (s.kernel.endpoints ep).msgCount < (s.kernel.endpoints ep).ringSize
  · have hptr : (s.kernel.endpoints ep).msgRing = some ptr := by
      apply h.stored.resolve_right
      intro hclosed
      simp [hclosed.1] at hok
    have hpush := pushed_ipcMsgEnqueue msg hptr hok.1 hok.2
    rw [if_pos hok, if_pos rfl]
    constructor
    · exact (congrArg Ring.size hpush.ring).trans h.size
    · rw [hpush.ring]
      exact h.sound.push msg hok.2
    · rw [hpush.ring, h.sound.contents_push msg hok.2, ← append_assoc, ← h.split]
    · exact .inl (hpush.msgRing.trans hptr)
  · obtain ⟨d, hd⟩ := ipcMsgEnqueue_refused msg hok
    have hring : (s.kernel.ipcMsgEnqueue ep msg).2.ringAt ep ptr = s.kernel.ringAt ep ptr := by
      rw [hd]
      simp [ringAt, modifyEndpoint, setEndpoint]
    rw [if_neg hok, if_neg (by decide)]
    constructor
    · exact (congrArg Ring.size hring).trans h.size
    · rw [hring]
      exact h.sound
    · rw [hring]
      exact h.split
    · rw [hd]
      simpa [modifyEndpoint, setEndpoint] using h.stored

theorem dequeue (h : Fifo ep n ptr s) : Fifo ep n ptr (s.step ep .dequeue) := by
  unfold step ipcMsgDequeue
  dsimp only
  by_cases hempty : (s.kernel.endpoints ep).msgCount = 0
  · rw [if_pos hempty]
    dsimp only
    rw [if_neg (by split_ifs <;> decide)]
    exact ⟨h.size, h.sound, h.split, h.stored⟩
  · have hptr := h.stored.resolve_right fun hclosed => hempty hclosed.2
    have hcount : 0 < (s.kernel.ringAt ep ptr).count := Nat.pos_of_ne_zero hempty
    rw [if_neg hempty, if_pos rfl, hptr]
    generalize hk : s.kernel.setEndpoint ep _ = k'
    have hring : k'.ringAt ep ptr = (s.kernel.ringAt ep ptr).pop := by
      subst hk
      simp [ringAt, setEndpoint, Ring.pop]
    constructor
    · exact (congrArg Ring.size hring).trans h.size
    · change (k'.ringAt ep ptr).Sound
      rw [hring]
      exact h.sound.pop hcount
    · change s.accepted = s.delivered ++ [(s.kernel.ringAt ep ptr).front] ++
        (k'.ringAt ep ptr).contents
      rw [hring, h.split, Ring.contents_eq_cons hcount, append_assoc, singleton_append]
    · left
      subst hk
      simp [setEndpoint]

theorem run (h : Fifo ep n ptr s) (calls : List QueueCall) : Fifo ep n ptr (s.run ep calls) := by
  induction calls generalizing s with
  | nil => exact h
  | cons call rest ih =>
    apply ih
    cases call with
    | enqueue msg => exact h.enqueue msg
    | dequeue => exact h.dequeue

theorem waiting (h : Fifo ep n ptr s) :
    s.kernel.waiting ep = (s.kernel.ringAt ep ptr).contents := by
  unfold Kernel.waiting
  rcases h.stored with hptr | ⟨-, hempty⟩
  · rw [hptr, Option.getD_some]
  · rw [Ring.contents_of_count_eq_zero hempty, Ring.contents_of_count_eq_zero hempty]

/-- A dequeue hands out the oldest message that waits; it has none exactly if none waits. -/
theorem ipcMsgDequeue_eq (h : Fifo ep n ptr s) :
    (s.kernel.ipcMsgDequeue ep).2.1 = (s.kernel.waiting ep).head? ∧
      ((s.kernel.ipcMsgDequeue ep).1 = 0 ↔ (s.kernel.endpoints ep).msgCount ≠ 0) := by
  rw [h.waiting]
  unfold ipcMsgDequeue
  dsimp only
  by_cases hempty : (s.kernel.endpoints ep).msgCount = 0
  · rw [if_pos hempty, Ring.contents_of_count_eq_zero hempty]
    refine ⟨rfl, ?_⟩
    dsimp only
    split_ifs <;> simp [hempty]
  · have hptr := h.stored.resolve_right fun hclosed => hempty hclosed.2
    rw [if_neg hempty, hptr, Ring.contents_eq_cons (Nat.pos_of_ne_zero hempty)]
    exact ⟨rfl, iff_of_true rfl hempty⟩

end Fifo
end QueueRun

namespace Kernel

structure EmptyQueue (k : Kernel) (ep : ℕ) : Prop where
  tail_lt : (k.endpoints ep).tail < (k.endpoints ep).ringSize
  head_eq : (k.endpoints ep).head = (k.endpoints ep).tail
  msgCount : (k.endpoints ep).msgCount = 0
  stored : (k.endpoints ep).state.isOpen → (k.endpoints ep).msgRing ≠ none

theorem EmptyQueue.fifo {k : Kernel} {ep : ℕ} (h : k.EmptyQueue ep) :
    ∃ ptr, QueueRun.Fifo ep (k.endpoints ep).ringSize ptr { kernel := k } := by
  have hsound (ptr : ℕ) : (k.ringAt ep ptr).Sound := by
    refine ⟨h.tail_lt, ?_, ?_⟩
    · change (k.endpoints ep).head =
        ((k.endpoints ep).tail + (k.endpoints ep).msgCount) % (k.endpoints ep).ringSize
      rw [h.msgCount, Nat.add_zero, Nat.mod_eq_of_lt h.tail_lt, h.head_eq]
    · change (k.endpoints ep).msgCount ≤ (k.endpoints ep).ringSize
      rw [h.msgCount]
      exact Nat.zero_le _
  have hnil (ptr : ℕ) : [] = [] ++ (k.ringAt ep ptr).contents := by
    rw [Ring.contents_of_count_eq_zero h.msgCount, nil_append]
  cases hptr : (k.endpoints ep).msgRing with
  | some ptr => exact ⟨ptr, rfl, hsound ptr, hnil ptr, .inl hptr⟩
  | none =>
    have hclosed : (k.endpoints ep).state.isOpen = false := by
      by_contra hopen
      exact h.stored (Bool.not_eq_false _ ▸ hopen) hptr
    exact ⟨0, rfl, hsound 0, hnil 0, .inr ⟨hclosed, h.msgCount⟩⟩

end Kernel

open Kernel

/-- After any calls on an endpoint that was empty, the accepted messages are the delivered ones
followed by those that wait in the ring. While one waits a dequeue succeeds with the oldest, and
only a full ring refuses a message. -/
theorem endpoint_queue_is_bounded_fifo {k : Kernel} {ep : ℕ} (h : k.EmptyQueue ep)
    (calls : List QueueCall) :
    let s := QueueRun.run ep { kernel := k } calls
    let e := s.kernel.endpoints ep
    let n := (k.endpoints ep).ringSize
    s.accepted = s.delivered ++ s.kernel.waiting ep ∧
      (s.kernel.waiting ep).length = e.msgCount ∧
      e.head = (e.tail + e.msgCount) % n ∧ e.msgCount ≤ n ∧
      (s.kernel.ipcMsgDequeue ep).2.1 = (s.kernel.waiting ep).head? ∧
      ((s.kernel.ipcMsgDequeue ep).1 = 0 ↔ e.msgCount ≠ 0) ∧
      (e.state = .active → ∀ msg, (s.kernel.ipcMsgEnqueue ep msg).1 < 0 ↔ e.msgCount = n) := by
  intro s e n
  obtain ⟨ptr, hstart⟩ := h.fifo
  have hfifo : QueueRun.Fifo ep n ptr s := hstart.run calls
  have hsize : e.ringSize = n := hfifo.size
  have hle : e.msgCount ≤ e.ringSize := hfifo.sound.count_le
  obtain ⟨holdest, hanswer⟩ := hfifo.ipcMsgDequeue_eq
  refine ⟨?_, ?_, ?_, hsize ▸ hle, holdest, hanswer, ?_⟩
  · rw [hfifo.waiting]
    exact hfifo.split
  · rw [hfifo.waiting]
    exact Ring.length_contents _
  · rw [← hsize]
    exact hfifo.sound.head_eq
  · intro hactive msg
    have hopen : e.state.isOpen = true := by rw [hactive]; rfl
    rw [ipcMsgEnqueue_fst]
    by_cases hroom : e.msgCount < e.ringSize
    · rw [if_pos ⟨hopen, hroom⟩]
      omega
    · rw [if_neg fun hok => hroom hok.2]
      omega

def twoSlots : Kernel where
  endpoints _ := { type := .endpoint, state := .active, msgRing := some 4096, ringSize := 2 }

/-- The third message wraps around to the slot of the first. -/
theorem two_slots_fifo : twoSlots.EmptyQueue 0 ∧
      let s := QueueRun.run 0 { kernel := twoSlots }
        [.enqueue { type := 1 }, .enqueue { type := 2 }, .dequeue, .enqueue { type := 3 }]
      s.accepted = s.delivered ++ s.kernel.waiting 0 ∧ s.delivered.map (·.type) = [1] ∧
        (s.kernel.ipcMsgDequeue 0).2.1.map (·.type) = some 2 ∧
        (s.kernel.ipcMsgDequeue 0).1 = 0 ∧ (s.kernel.ipcMsgEnqueue 0 {}).1 < 0 := by
  have hempty : twoSlots.EmptyQueue 0 := ⟨by decide, rfl, rfl, by decide⟩
  obtain ⟨hsplit, -, -, -, holdest, hanswer, hfull⟩ := endpoint_queue_is_bounded_fifo hempty
    [.enqueue { type := 1 }, .enqueue { type := 2 }, .dequeue, .enqueue { type := 3 }]
  refine ⟨hempty, hsplit, by decide, ?_, hanswer.mpr (by decide),
    (hfull (by decide) {}).mpr (by decide)⟩
  rw [holdest]
  decide

end SageOS
