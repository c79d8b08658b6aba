import SageOS.EndpointFlow

/-!
# The lifecycle of endpoints

The lifecycle table allows five moves, each on the authority of a capability that carries `REVOKE`,
and messages enter active endpoints only. Pausing and draining keep to the table. A call breaks it
exactly when it destroys an endpoint that is neither paused nor draining, resumes one without the
right, or sends to one that is draining.
-/
namespace SageOS
open Kernel List Function Option

inductive LifecycleMove : IpcLifecycleState → IpcLifecycleState → Prop
  | pause : LifecycleMove .active .paused
  | resume : LifecycleMove .paused .active
  | drain : LifecycleMove .active .draining
  | drained : LifecycleMove .draining .dead
  | destroy : LifecycleMove .paused .dead

namespace IpcCall

def subject : IpcCall → Option ℕ
  | .objectDestroy handle | .capRevoke handle | .objectPause handle | .objectResume handle
  | .objectDrain handle => some handle
  | _ => none

/-- The caller may move the endpoint; the loop of a drain goes on after the drain was allowed. -/
def Carries (k : Kernel) (call : IpcCall) (ep : ℕ) : Prop :=
  call = .objectDrainResume ep ∨
    ∃ handle, call.subject = some handle ∧ k.Names handle ep ipcCapRightRevoke

/-- The states that a call passes through: a drain first marks the endpoint. -/
def stages (k : Kernel) (call : IpcCall) : List Kernel :=
  match call with
  | .objectDrain handle =>
    ((k.resolveWith handle ipcCapRightRevoke).filter fun c => isEndpointLike c).toList.map
      (fun c => (k.ipcLifecycleTransition c.objectId .draining).2) ++ [call.exec k]
  | _ => [call.exec k]

structure LawfulWrite (k : Kernel) (call : IpcCall) (q q' : ℕ → QueueView) : Prop where
  move : ∀ j, (q j).state ≠ (q' j).state →
    LifecycleMove (q j).state (q' j).state ∧ call.Carries k j
  added : ∀ j, (q j).msgsSent ≠ (q' j).msgsSent →
    (q j).state ≠ .paused ∧ (q j).state ≠ .draining ∧ (q j).state ≠ .dead

/-- A call that creates nothing keeps to the table from one of its states to the next. -/
def Lawful (k : Kernel) (call : IpcCall) : Prop :=
  call.creates = false →
    (k :: call.stages k).IsChain fun k₁ k₂ => LawfulWrite k call k₁.queues k₂.queues

/-- What the caller has to respect. -/
def Tame (k : Kernel) : IpcCall → Prop
  | .objectDestroy handle | .capRevoke handle => ∀ ep, k.Names handle ep ipcCapRightRevoke →
      (k.endpoints ep).state ≠ .active ∧ (k.endpoints ep).state ≠ .constructed
  | .objectResume handle => ∀ c, k.ownTable.resolve handle = some c → isEndpointLike c →
      (k.endpoints c.objectId).state = .paused → c.hasRight ipcCapRightRevoke
  | .send handle msg flags => ∀ ep, k.Accepts handle msg flags ep →
      (k.endpoints ep).state ≠ .draining
  | .call handle req => ∀ ep, k.CallAccepts handle req ep → (k.endpoints ep).state ≠ .draining
  | _ => True

variable {k : Kernel} {call : IpcCall} {q : ℕ → QueueView} {ep handle : ℕ} {v : QueueView}

theorem LawfulWrite.refl : LawfulWrite k call q q :=
  ⟨fun _ h => absurd rfl h, fun _ h => absurd rfl h⟩

theorem LawfulWrite.update
    (hmove : (q ep).state ≠ v.state → LifecycleMove (q ep).state v.state ∧ call.Carries k ep)
    (hadded : (q ep).msgsSent ≠ v.msgsSent →
      (q ep).state ≠ .paused ∧ (q ep).state ≠ .draining ∧ (q ep).state ≠ .dead) :
    LawfulWrite k call q (Function.update q ep v) := by
  constructor
  · intro j hj
    by_cases he : j = ep
    · subst he
      rw [update_self] at hj ⊢
      exact hmove hj
    · rw [update_of_ne he] at hj
      exact absurd rfl hj
  · intro j hj
    by_cases he : j = ep
    · subst he
      rw [update_self] at hj
      exact hadded hj
    · rw [update_of_ne he] at hj
      exact absurd rfl hj

theorem LawfulWrite.setState {s : IpcLifecycleState}
    (hmove : (k.queues ep).state ≠ s → LifecycleMove (k.queues ep).state s ∧ call.Carries k ep) :
    LawfulWrite k call k.queues (k.setState ep s) :=
  .update hmove fun h => absurd rfl h

theorem LawfulWrite.sent (hdraining : (q ep).state ≠ .draining)
    (hopen : (q ep).state.isOpen = true) :
    LawfulWrite k call q (Function.update q ep (q ep).sent) := by
  apply LawfulWrite.update
  · exact fun h => absurd rfl h
  · intro _
    cases hs : (q ep).state with
    | active => exact ⟨nofun, nofun, nofun⟩
    | draining => exact absurd hs hdraining
    | _ =>
      rw [hs] at hopen
      cases hopen

theorem LawfulWrite.trans_received {q' : ℕ → QueueView} (h : LawfulWrite k call q q') :
    LawfulWrite k call q (Function.update q' ep (q' ep).received) := by
  have hkeep : ∀ j, (Function.update q' ep (q' ep).received j).state = (q' j).state ∧
      (Function.update q' ep (q' ep).received j).msgsSent = (q' j).msgsSent := by
    intro j
    rw [update_apply]
    split_ifs with he
    · rw [he]
      exact ⟨rfl, rfl⟩
    · exact ⟨rfl, rfl⟩
  constructor
  · intro j
    rw [(hkeep j).1]
    exact h.move j
  · intro j
    rw [(hkeep j).2]
    exact h.added j

theorem lawful_iff (hcall : ∀ handle, call ≠ .objectDrain handle) : call.Lawful k ↔
    (call.creates = false → LawfulWrite k call k.queues (call.exec k).queues) := by
  have hstages : call.stages k = [call.exec k] := by
    cases call with
    | objectDrain handle => exact absurd rfl (hcall handle)
    | _ => rfl
  unfold Lawful
  rw [hstages, isChain_pair]

theorem move_of_tame (hactive : (k.endpoints ep).state ≠ .active)
    (hcons : (k.endpoints ep).state ≠ .constructed) (hne : (k.endpoints ep).state ≠ .dead) :
    LifecycleMove (k.endpoints ep).state .dead := by
  cases hs : (k.endpoints ep).state with
  | active => exact absurd hs hactive
  | constructed => exact absurd hs hcons
  | paused => exact .destroy
  | draining => exact .drained
  | dead => exact absurd hs hne

theorem LawfulWrite.of_tame (hflow : QueueFlow k call q) (htame : call.Tame k)
    (hcreates : call.creates = false) (hdrain : ∀ handle, call ≠ .objectDrain handle) :
    LawfulWrite k call k.queues q := by
  cases hflow with
  | same => exact .refl
  | sent h => exact .sent (htame _ h) h.isOpen
  | received h => exact LawfulWrite.refl.trans_received
  | receivedLater h => exact LawfulWrite.refl.trans_received
  | called h => exact .sent (htame _ h) h.isOpen
  | answered h hq hj =>
    subst hq
    exact (LawfulWrite.sent (htame _ h) h.isOpen).trans_received
  | paused h hs =>
    apply LawfulWrite.setState
    rw [hs]
    exact fun _ => ⟨.pause, .inr ⟨_, rfl, h⟩⟩
  | resumed hc hlike hep hs =>
    subst hep
    have hright := htame _ hc hlike hs
    apply LawfulWrite.setState
    rw [hs]
    exact fun _ => ⟨.resume, .inr ⟨_, rfl, _,
      filter_eq_some_iff.mpr ⟨hc, decide_eq_true hright⟩, hlike, rfl⟩⟩
  | draining h hs => exact absurd rfl (hdrain _)
  | drained h hs hempty => exact absurd rfl (hdrain _)
  | drainedLater hs hempty =>
    apply LawfulWrite.setState
    rw [hs]
    exact fun _ => ⟨.drained, .inl rfl⟩
  | destroyed h =>
    obtain ⟨hactive, hcons⟩ := htame _ h
    apply LawfulWrite.setState
    exact fun hne => ⟨move_of_tame hactive hcons hne, .inr ⟨_, rfl, h⟩⟩
  | revoked h =>
    obtain ⟨hactive, hcons⟩ := htame _ h
    apply LawfulWrite.setState
    exact fun hne => ⟨move_of_tame hactive hcons hne, .inr ⟨_, rfl, h⟩⟩
  | created hcall =>
    rw [hcreates] at hcall
    cases hcall

theorem lawful_drain_of_active {c : IpcCapability}
    (hc : k.resolveWith handle ipcCapRightRevoke = some c) (hlike : isEndpointLike c)
    (hs : (k.queues c.objectId).state = .active) :
    LawfulWrite k (.objectDrain handle) k.queues
        (k.ipcLifecycleTransition c.objectId .draining).2.queues ∧
      LawfulWrite k (.objectDrain handle) (k.ipcLifecycleTransition c.objectId .draining).2.queues
        (k.sysIpcObjectDrain handle).2.queues := by
  have hcarries : (IpcCall.objectDrain handle).Carries k c.objectId :=
    .inr ⟨handle, rfl, c, hc, hlike, rfl⟩
  rw [(ipcLifecycleTransition_of_active (.inr rfl) hs).2, sysIpcObjectDrain_of_active hc hlike hs]
  constructor
  · apply LawfulWrite.setState
    rw [hs]
    exact fun _ => ⟨.drain, hcarries⟩
  · split_ifs
    · have hdead : k.setState c.objectId .dead = Function.update (k.setState c.objectId .draining)
          c.objectId ((k.queues c.objectId).withState .dead) := by
        unfold Kernel.setState
        rw [update_idem]
      rw [hdead]
      apply LawfulWrite.update <;> rw [Kernel.setState, update_self]
      · exact fun _ => ⟨.drained, hcarries⟩
      · exact fun h => absurd rfl h
    · exact .refl

theorem lawful_drain (k : Kernel) (handle : ℕ) : (IpcCall.objectDrain handle).Lawful k := by
  intro _
  change (k :: (((k.resolveWith handle ipcCapRightRevoke).filter fun c =>
    isEndpointLike c).toList.map (fun c => (k.ipcLifecycleTransition c.objectId .draining).2) ++
      [(k.sysIpcObjectDrain handle).2])).IsChain _
  cases hc : k.resolveWith handle ipcCapRightRevoke with
  | none =>
    have hexec : (k.sysIpcObjectDrain handle).2 = k := by
      unfold sysIpcObjectDrain
      rw [hc]
    rw [hexec]
    exact isChain_pair.mpr .refl
  | some c =>
    by_cases hlike : isEndpointLike c
    · have hfilter : (some c).filter (fun c => decide (isEndpointLike c)) = some c :=
        filter_some_pos (decide_eq_true hlike)
      rw [hfilter]
      by_cases hs : (k.queues c.objectId).state = .active
      · obtain ⟨hmark, hpass⟩ := lawful_drain_of_active hc hlike hs
        exact isChain_cons_cons.mpr ⟨hmark, isChain_pair.mpr hpass⟩
      · rw [sysIpcObjectDrain_of_ne hc fun _ => hs]
        change [k, (k.ipcLifecycleTransition c.objectId .draining).2, k].IsChain _
        rw [ipcLifecycleTransition_of_ne (.inr rfl) hs]
        exact isChain_cons_cons.mpr ⟨.refl, isChain_pair.mpr .refl⟩
    · have hfilter : (some c).filter (fun c => decide (isEndpointLike c)) = none :=
        filter_some_neg (by simpa using hlike)
      rw [hfilter, sysIpcObjectDrain_of_ne hc fun h => absurd h hlike]
      exact isChain_pair.mpr .refl

theorem LawfulWrite.of_destroy (h : k.Names handle ep ipcCapRightRevoke)
    (hlaw : LawfulWrite k call k.queues (k.sysIpcObjectDestroy handle).2.queues) :
    (k.endpoints ep).state ≠ .active ∧ (k.endpoints ep).state ≠ .constructed := by
  have hmove := hlaw.move ep
  rw [h.destroy, Kernel.setState, update_self] at hmove
  change (k.endpoints ep).state ≠ .dead → LifecycleMove (k.endpoints ep).state .dead ∧ _ at hmove
  constructor
  · intro hs
    rw [hs] at hmove
    cases (hmove (by decide)).1
  · intro hs
    rw [hs] at hmove
    cases (hmove (by decide)).1

theorem LawfulWrite.of_resume {c : IpcCapability} (hc : k.ownTable.resolve handle = some c)
    (hlike : isEndpointLike c) (hs : (k.endpoints c.objectId).state = .paused)
    (hlaw : LawfulWrite k (.objectResume handle) k.queues
      (k.sysIpcObjectResume handle).2.queues) : c.hasRight ipcCapRightRevoke := by
  have hmove := hlaw.move c.objectId
  rw [queues_sysIpcObjectResume hc hlike hs, Kernel.setState, update_self] at hmove
  have hne : (k.queues c.objectId).state ≠ .active := by
    change (k.endpoints c.objectId).state ≠ .active
    rw [hs]
    decide
  obtain ⟨-, hcarries | ⟨h, hsubject, c', hc', -⟩⟩ := hmove hne
  · cases hcarries
  · obtain rfl := some.inj hsubject
    obtain ⟨hres, hright⟩ := filter_eq_some_iff.mp hc'
    obtain rfl := some.inj (hc.symm.trans hres)
    exact of_decide_eq_true hright

theorem LawfulWrite.of_sent {q' : ℕ → QueueView} (hlaw : LawfulWrite k call k.queues q')
    (hsent : (q' ep).msgsSent = (k.queues ep).msgsSent + 1) :
    (k.endpoints ep).state ≠ .draining := by
  have hadded := hlaw.added ep
  rw [hsent] at hadded
  exact (hadded (Nat.lt_succ_self _).ne).2.1

theorem msgsSent_of_callAccepts {req : IpcMsg} (h : k.CallAccepts handle req ep) :
    ((k.sysIpcCall handle req).2.queues ep).msgsSent = (k.queues ep).msgsSent + 1 := by
  rcases h.call rfl with hq | ⟨j, hj, hq⟩ <;> rw [hq]
  · rw [update_self]
    rfl
  · by_cases he : ep = j
    · rw [← he, update_self, update_self]
      rfl
    · rw [update_of_ne he, update_self]
      rfl

theorem Lawful.write (h : call.Lawful k) (hcreates : call.creates = false)
    (hdrain : ∀ handle, call ≠ .objectDrain handle) :
    LawfulWrite k call k.queues (call.exec k).queues :=
  (lawful_iff hdrain).mp h hcreates

theorem Lawful.tame (h : call.Lawful k) : call.Tame k := by
  cases call with
  | objectDestroy handle => exact fun ep hep => (h.write rfl (by simp)).of_destroy hep
  | capRevoke handle => exact fun ep hep => (h.write rfl (by simp)).of_destroy hep
  | objectResume handle => exact fun c hc hlike hs => (h.write rfl (by simp)).of_resume hc hlike hs
  | send handle msg flags =>
    intro ep hep
    apply (h.write rfl (by simp)).of_sent
    change ((k.sysIpcSend handle msg flags).2.queues ep).msgsSent = _
    rw [hep.send.2, update_self]
    rfl
  | call handle req =>
    exact fun ep hep => (h.write rfl (by simp)).of_sent (msgsSent_of_callAccepts hep)
  | _ => trivial

/-- The calls that keep to the table are those whose callers respect it. -/
theorem lawful_iff_tame (k : Kernel) (call : IpcCall) : call.Lawful k ↔ call.Tame k := by
  refine ⟨Lawful.tame, fun htame => ?_⟩
  by_cases hdrain : ∃ handle, call = .objectDrain handle
  · obtain ⟨handle, rfl⟩ := hdrain
    exact lawful_drain k handle
  · push Not at hdrain
    exact (lawful_iff hdrain).mpr fun hcreates =>
      .of_tame (call.queueFlow k) htame hcreates hdrain

/-- The thread that boots holds one capability, on endpoint 0 in the given state. -/
def holding (rights : UInt32) (s : IpcLifecycleState) : Kernel :=
  (boot.modifyEndpoint 0 fun e => { e with state := s, ringSize := ipcRingSize }).putCap 0
    { rights := rights, objectType := .endpoint, objectId := 0, refCount := 1 }

/-- Destroying an active endpoint, resuming one without the right, and sending to one that is
draining all succeed. -/
theorem unlawful_calls : ¬ (IpcCall.objectDestroy 0).Lawful (holding ipcCapRightRevoke .active) ∧
      ¬ (IpcCall.objectResume 0).Lawful (holding ipcCapRightRecv .paused) ∧
      ¬ (IpcCall.send 0 { magic := ipcMsgMagic } 0).Lawful (holding ipcCapRightSend .draining) := by
  refine ⟨fun h => ?_, fun h => ?_, fun h => ?_⟩
  · exact (h.tame 0 ⟨_, rfl, .inl rfl, rfl⟩).1 rfl
  · exact absurd (h.tame _ rfl (.inl rfl) rfl) (by decide +kernel)
  · refine h.tame 0 ⟨⟨_, rfl, rfl, rfl⟩, rfl, by decide +kernel, ⟨nofun, nofun⟩, ?_⟩ rfl
    decide +kernel

end IpcCall
end SageOS
