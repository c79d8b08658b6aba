import SageOS.GuardedRun
import SageOS.RecvView

/-!
# A blocking receive among sends and exits

The receive of one thread is cut into its atomic steps: the two dequeues, the section that enqueues
the caller as a waiter, the write of its state and the calls of the scheduler. They interleave with
sends, each one section under the lock of the queue, and with exits, which visit the task slots one
after the other. A message that arrives between the empty dequeue and the write of the state wakes
nobody or wakes too early, and an exit wakes the receiver for nothing. As long as neither happens
the view of the receiver is known at each step, and the run ends with a message.
-/
namespace SageOS
open Kernel GuardedRun

inductive RecvPc
  | dequeue | enqueue | block | schedule | yield | retry
  | returned (o : IpcOutcome)

/-- An exiting thread is at the slot that it visits next. -/
structure RecvState where
  kernel : Kernel
  pc : RecvPc := .dequeue
  exits : ℕ → Option ℕ := fun _ => none

inductive RecvEvent
  | recv
  | send (msg : IpcMsg)
  | exit (x : ℕ)

namespace RecvState
variable (r ep : ℕ)

/-- The next step of the receiver; a thread that is not runnable does not come back from the
scheduler. -/
def recvStep (s : RecvState) : RecvState :=
  let k := { s.kernel with current := r }
  match s.pc with
  | .dequeue =>
    let d := k.ipcMsgDequeue ep
    { s with
      kernel := d.2.2
      pc := if d.1 = -2 then .enqueue else .returned (recvOutcome d).1 }
  | .enqueue => { s with kernel := k.ipcWaitEnqueue ep r, pc := .block }
  | .block =>
    { s with kernel := k.modifyTask r fun t => { t with state := .blocked }, pc := .schedule }
  | .schedule => { s with kernel := k.schedSchedule, pc := .yield }
  | .yield => if k.runnable r then { s with kernel := k.schedSchedule, pc := .retry } else s
  | .retry =>
    if k.runnable r then
      let d := k.ipcMsgDequeue ep
      { s with kernel := d.2.2, pc := .returned (recvOutcome d).1 }
    else s
  | .returned _ => s

def exitStep (s : RecvState) (x : ℕ) : RecvState :=
  match s.exits x with
  | none =>
    { s with
      kernel := s.kernel.modifyTask x fun t => { t with state := .terminated }
      exits := Function.update s.exits x (some 0) }
  | some i =>
    if i < maxTasks then
      { s with
        kernel := s.kernel.schedUnblock i
        exits := Function.update s.exits x (some (i + 1)) }
    else
      { s with
        kernel := { s.kernel with current := x }.schedSchedule
        exits := Function.update s.exits x none }

def step (s : RecvState) : RecvEvent → RecvState
  | .recv => s.recvStep r ep
  | .send msg => { s with kernel := (s.kernel.ipcMsgEnqueue ep msg).2 }
  | .exit x => s.exitStep x

def Pending (s : RecvState) : Prop := ∃ x i, s.exits x = some i ∧ i ≤ r

structure Delivers (s : RecvState) : Prop where
  message : ∀ o, s.pc = .returned o → ∃ msg, o = .message msg
  wakeup : (s.kernel.tasks r).state = .blocked → ¬ s.Pending r →
    (s.kernel.endpoints ep).msgCount = 0

/-- A running thread begins to receive from an active endpoint where nobody waits. -/
structure Begins (s : RecvState) : Prop where
  pc : s.pc = .dequeue
  running : (s.kernel.tasks r).state = .running
  active : (s.kernel.endpoints ep).state = .active
  alone : (s.kernel.endpoints ep).waitHead = none

/-- Nothing is sent from the empty dequeue to the write of the state, and nobody who exits visits
the receiver while it sleeps. -/
def Undisturbed (s : RecvState) : RecvEvent → Prop
  | .recv => True
  | .send _ => s.pc ≠ .enqueue ∧ s.pc ≠ .block
  | .exit x => x ≠ r ∧ (s.exits x = some r → s.pc = .schedule ∨ s.pc = .yield →
      (s.kernel.tasks r).state ≠ .blocked)

end RecvState

namespace RecvState
variable (r ep : ℕ)

/-- The receiver sleeps and is the first to be woken. -/
structure Asleep (v : RecvView) : Prop where
  blocked : v.blocked = true
  first : v.waitHead = some r
  only : v.next = none
  empty : v.msgCount = 0

structure Woken (v : RecvView) : Prop where
  awake : v.blocked = false
  nobody : v.waitHead = none
  message : v.msgCount ≠ 0

/-- What holds of the view at each step of the receive. -/
def At (v : RecvView) : RecvPc → Prop
  | .dequeue => v.blocked = false ∧ v.waitHead = none
  | .enqueue => v.blocked = false ∧ v.waitHead = none ∧ v.msgCount = 0
  | .block => v.waitHead = some r ∧ v.next = none ∧ v.msgCount = 0
  | .schedule | .yield => Asleep r v ∨ Woken v
  | .retry => Woken v
  | .returned o => v.blocked = false ∧ v.waitHead = none ∧ ∃ msg, o = .message msg

structure Inv (s : RecvState) : Prop where
  active : (s.kernel.recvView r ep).state = .active
  at_pc : At r (s.kernel.recvView r ep) s.pc

variable {r ep} {s : RecvState}
variable {v : RecvView} {pc : RecvPc}

theorem At.empty_of_blocked (h : At r v pc) (hb : v.blocked = true) : v.msgCount = 0 := by
  cases pc with
  | dequeue => cases hb.symm.trans h.1
  | enqueue => exact h.2.2
  | block => exact h.2.2
  | schedule | yield =>
    rcases h with h | h
    · exact h.empty
    · cases hb.symm.trans h.awake
  | retry => cases hb.symm.trans h.awake
  | returned o => cases hb.symm.trans h.1

theorem Inv.delivers (h : s.Inv r ep) : s.Delivers r ep := by
  constructor
  · intro o ho
    have hat := h.at_pc
    rw [ho] at hat
    exact hat.2.2
  · intro hb _
    exact h.at_pc.empty_of_blocked (decide_eq_true hb)

theorem Begins.inv (h : s.Begins r ep) : s.Inv r ep := by
  refine ⟨h.active, ?_⟩
  rw [h.pc]
  refine ⟨decide_eq_false ?_, h.alone⟩
  rw [h.running]
  exact nofun

variable {k : Kernel}

theorem ipcMsgDequeue_of_active (hs : (k.recvView r ep).state = .active)
    (hempty : (k.recvView r ep).msgCount = 0) : k.ipcMsgDequeue ep = (-2, none, k) := by
  have hzero : (k.queues ep).msgCount = 0 := hempty
  obtain ⟨hret, hrest⟩ := ipcMsgDequeue_of_empty hzero
  have hactive : (k.queues ep).state = .active := hs
  rw [hactive, if_neg (by decide)] at hret
  exact Prod.ext hret hrest

theorem ipcMsgDequeue_of_message (h : (k.recvView r ep).msgCount ≠ 0) :
    (k.ipcMsgDequeue ep).1 = 0 ∧ ∃ msg, (recvOutcome (k.ipcMsgDequeue ep)).1 = .message msg := by
  have hpos : (k.endpoints ep).msgCount ≠ 0 := h
  unfold recvOutcome ipcMsgDequeue
  rw [if_neg hpos]
  exact ⟨rfl, _, rfl⟩

theorem not_blocked_of_runnable (h : k.runnable r) : (k.recvView r ep).blocked = false := by
  apply decide_eq_false
  rcases h with h | h <;> rw [h] <;> exact nofun

theorem Woken.of_runnable (hrun : k.runnable r)
    (h : Asleep r (k.recvView r ep) ∨ Woken (k.recvView r ep)) : Woken (k.recvView r ep) := by
  rcases h with h | h
  · cases (not_blocked_of_runnable hrun).symm.trans h.blocked
  · exact h

theorem Inv.of_view (hv : k.recvView r ep = v)
    (hactive : v.state = .active) (pc : RecvPc) (hat : At r v pc) (exits : ℕ → Option ℕ) :
    Inv r ep ⟨k, pc, exits⟩ := by
  subst hv
  exact ⟨hactive, hat⟩

theorem inv_returned (hactive : (k.recvView r ep).state = .active)
    (hawake : (k.recvView r ep).blocked = false) (hnobody : (k.recvView r ep).waitHead = none)
    (hmsg : (k.recvView r ep).msgCount ≠ 0) (exits : ℕ → Option ℕ) :
    Inv r ep ⟨(k.ipcMsgDequeue ep).2.2, .returned (recvOutcome (k.ipcMsgDequeue ep)).1, exits⟩ := by
  apply Inv.of_view (recvView_ipcMsgDequeue k) hactive
  exact ⟨hawake, hnobody, (ipcMsgDequeue_of_message hmsg).2⟩

theorem Inv.dequeue (hactive : (k.recvView r ep).state = .active)
    (hat : At r (k.recvView r ep) .dequeue) (exits : ℕ → Option ℕ) :
    Inv r ep ⟨(k.ipcMsgDequeue ep).2.2, if (k.ipcMsgDequeue ep).1 = -2 then .enqueue
      else .returned (recvOutcome (k.ipcMsgDequeue ep)).1, exits⟩ := by
  obtain ⟨hawake, hnobody⟩ := hat
  by_cases hempty : (k.recvView r ep).msgCount = 0
  · rw [ipcMsgDequeue_of_active hactive hempty]
    exact ⟨hactive, hawake, hnobody, hempty⟩
  · rw [(ipcMsgDequeue_of_message hempty).1, if_neg (by decide)]
    exact inv_returned hactive hawake hnobody hempty exits

theorem Inv.recv (h : s.Inv r ep) : (s.recvStep r ep).Inv r ep := by
  obtain ⟨kernel, pc, exits⟩ := s
  obtain ⟨hactive, hat⟩ := h
  set k : Kernel := { kernel with current := r }
  change (k.recvView r ep).state = .active at hactive
  change At r (k.recvView r ep) pc at hat
  cases pc with
  | dequeue => exact .dequeue hactive hat exits
  | enqueue =>
    obtain ⟨-, hnobody, hempty⟩ := hat
    exact .of_view (recvView_ipcWaitEnqueue hnobody) hactive .block ⟨rfl, rfl, hempty⟩ exits
  | block =>
    obtain ⟨hfirst, honly, hempty⟩ := hat
    exact .of_view (recvView_setState k .blocked) hactive .schedule
      (.inl ⟨rfl, hfirst, honly, hempty⟩) exits
  | schedule => exact .of_view (recvView_schedSchedule k) hactive .yield hat exits
  | yield =>
    unfold recvStep
    dsimp only
    split_ifs with hrun
    · have hwoken : Woken (k.recvView r ep) := .of_runnable hrun hat
      exact .of_view (recvView_schedSchedule k) hactive .retry hwoken exits
    · exact ⟨hactive, hat⟩
  | retry =>
    unfold recvStep
    dsimp only
    split_ifs with hrun
    · exact inv_returned hactive hat.awake hat.nobody hat.message exits
    · exact ⟨hactive, hat⟩
  | returned o => exact ⟨hactive, hat⟩

theorem At.head (h : At r v pc) : v.waitHead = none ∨ v.waitHead = some r ∧ v.next = none := by
  cases pc with
  | dequeue => exact .inl h.2
  | enqueue => exact .inl h.2.1
  | block => exact .inr ⟨h.1, h.2.1⟩
  | schedule | yield =>
    rcases h with h | h
    · exact .inr ⟨h.first, h.only⟩
    · exact .inl h.nobody
  | retry => exact .inl h.nobody
  | returned o => exact .inl h.2.1

theorem At.sent (h : At r v pc) (henqueue : pc ≠ .enqueue) (hblock : pc ≠ .block) : At r { v with
      blocked := v.blocked && (v.waitHead = none)
      waitHead := none
      msgCount := v.msgCount + 1 } pc := by
  have hwoken (h : Asleep r v ∨ Woken v) : Woken { v with
      blocked := v.blocked && (v.waitHead = none)
      waitHead := none
      msgCount := v.msgCount + 1 } := by
    refine ⟨?_, rfl, Nat.succ_ne_zero _⟩
    rcases h with h | h
    · simp [h.first]
    · simp [h.awake]
  cases pc with
  | dequeue => exact ⟨by simp [h.1], rfl⟩
  | enqueue => exact absurd rfl henqueue
  | block => exact absurd rfl hblock
  | schedule | yield => exact .inr (hwoken h)
  | retry => exact hwoken (.inr h)
  | returned o => exact ⟨by simp [h.1], rfl, h.2.2⟩

theorem Inv.send (h : s.Inv r ep) {msg : IpcMsg} (hok : s.Undisturbed r (.send msg)) :
    Inv r ep { s with kernel := (s.kernel.ipcMsgEnqueue ep msg).2 } := by
  obtain ⟨hactive, hat⟩ := h
  rcases recvView_ipcMsgEnqueue msg hactive hat.head with hview | hview
  · exact .of_view hview hactive s.pc hat s.exits
  · exact .of_view hview hactive s.pc (hat.sent hok.1 hok.2) s.exits

theorem At.visited (h : At r v pc) (hawake : pc = .schedule ∨ pc = .yield → v.blocked = false) :
    At r { v with blocked := false } pc := by
  cases pc with
  | dequeue => exact ⟨rfl, h.2⟩
  | enqueue => exact ⟨rfl, h.2⟩
  | block => exact h
  | schedule | yield =>
    rcases h with h | h
    · cases (hawake (by simp)).symm.trans h.blocked
    · exact .inr ⟨rfl, h.nobody, h.message⟩
  | retry => exact ⟨rfl, h.nobody, h.message⟩
  | returned o => exact ⟨rfl, h.2⟩

theorem Inv.exit (h : s.Inv r ep) {x : ℕ} (hok : s.Undisturbed r (.exit x)) :
    (s.exitStep x).Inv r ep := by
  obtain ⟨hactive, hat⟩ := h
  obtain ⟨hx, hvisit⟩ := hok
  unfold exitStep
  cases hi : s.exits x with
  | none => exact .of_view (recvView_modifyTask_of_ne s.kernel hx _) hactive s.pc hat _
  | some i =>
    dsimp only
    split_ifs
    · refine .of_view (recvView_schedUnblock s.kernel i) ?_ s.pc ?_ _
      · split_ifs
        · exact hactive
        · exact hactive
      · split_ifs with hir
        · subst hir
          exact hat.visited fun hpc => decide_eq_false (hvisit hi hpc)
        · exact hat
    · exact .of_view (recvView_schedSchedule { s.kernel with current := x }) hactive s.pc hat _

theorem Inv.step {e : RecvEvent} (h : s.Inv r ep) (hok : s.Undisturbed r e) :
    (s.step r ep e).Inv r ep := by
  cases e with
  | recv => exact h.recv
  | send msg => exact h.send hok
  | exit x => exact h.exit hok

variable (r ep s)

/-- Every state of an undisturbed run delivers. -/
theorem undisturbed_recv_delivers (hbegins : s.Begins r ep) (es : List RecvEvent)
    (hes : Guarded (step r ep) (Undisturbed r) s es) : (run (step r ep) s es).Delivers r ep := by
  have hinv : ∀ s e, (fun s : RecvState => s.Inv r ep) s → Undisturbed r s e →
      (fun s : RecvState => s.Inv r ep) (step r ep s e) := fun _ _ => Inv.step
  exact (invariant_run hinv hbegins.inv hes).delivers

/-- Thread 1 runs, and endpoint 0 is active and empty. -/
def oneReceiver : RecvState where
  kernel := (boot.modifyTask 1 fun t => { t with state := .running }).modifyEndpoint 0 fun e =>
    { e with state := .active, ringSize := ipcRingSize }

theorem begins_oneReceiver : oneReceiver.Begins 1 0 := ⟨rfl, rfl, rfl, rfl⟩

def woken : List RecvEvent :=
  [.recv, .recv, .recv, .recv, .send {}, .recv, .recv]

theorem oneReceiver_is_woken : (run (step 1 0) oneReceiver woken).Delivers 1 0 :=
  undisturbed_recv_delivers 1 0 oneReceiver begins_oneReceiver woken
    ⟨trivial, trivial, trivial, trivial, ⟨nofun, nofun⟩, trivial, trivial, trivial⟩

/-- A message arrives before the receiver is a waiter, or before the write of its state; or the
receiver is woken by a thread that exits. -/
theorem disturbed_recv_fails :
    ¬ (run (step 1 0) oneReceiver [.recv, .send {}, .recv]).Delivers 1 0 ∧
      ¬ (run (step 1 0) oneReceiver [.recv, .recv, .send {}, .recv]).Delivers 1 0 ∧
      ¬ (run (step 1 0) oneReceiver [.recv, .recv, .recv, .recv, .exit 2, .exit 2, .exit 2, .recv,
        .recv]).Delivers 1 0 := by
  refine ⟨fun h => ?_, fun h => ?_, fun h => ?_⟩
  · exact absurd (h.wakeup (by decide +kernel) fun ⟨_, _, hx, _⟩ => nomatch hx) (by decide +kernel)
  · exact absurd (h.wakeup (by decide +kernel) fun ⟨_, _, hx, _⟩ => nomatch hx) (by decide +kernel)
  · obtain ⟨msg, hmsg⟩ := h.message (.ret (-2)) rfl
    cases hmsg

end RecvState
end SageOS
