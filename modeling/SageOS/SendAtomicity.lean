import SageOS.EndpointFifo

/-!
# Failed sends

A send that fails must leave the capability tables and the message rings alone. Without
`CAP_TRANSFER` it does. With it, the handles of the message are freed one after the other before
the rest of them is looked at and before the ring is asked for room, so a send that fails after
the first of them has lost it.
-/
namespace SageOS
open List Option
namespace Kernel
variable {k : Kernel} {handle : ℕ} {msg : IpcMsg} {flags : UInt32}

/-- Tables and rings are as before; a drop may have been counted. -/
structure Unsent (k k' : Kernel) : Prop where
  ipcExt : k'.ipcExt = k.ipcExt
  ringMem : k'.ringMem = k.ringMem
  endpoints : ∀ ep, ∃ n, k'.endpoints ep = { k.endpoints ep with drops := n }

theorem Unsent.refl (k : Kernel) : Unsent k k := ⟨rfl, rfl, fun _ => ⟨_, rfl⟩⟩

theorem unsent_modifyEndpoint_drops (k : Kernel) (ep n : ℕ) :
    Unsent k (k.modifyEndpoint ep fun e => { e with drops := n }) := by
  refine ⟨rfl, rfl, fun j => ?_⟩
  by_cases hj : j = ep
  · subst hj
    exact ⟨n, Function.update_self ..⟩
  · exact ⟨_, Function.update_of_ne hj _ _⟩

@[simp] theorem ownTable_setOwnTable (k : Kernel) (tab : CapTable) :
    (k.setOwnTable tab).ownTable = tab := setCapTable_capTable_self k k.current tab

@[simp] theorem setOwnTable_setOwnTable (k : Kernel) (tab tab' : CapTable) :
    (k.setOwnTable tab).setOwnTable tab' = k.setOwnTable tab' := by
  simp [setOwnTable, setCapTable, extIndex]

theorem setOwnTable_ownTable (k : Kernel) : k.setOwnTable k.ownTable = k := by
  simp [setOwnTable, setCapTable, ownTable, capTable]

theorem setOwnTable_ipcExt_ne {tab : CapTable} (h : tab ≠ k.ownTable) :
    (k.setOwnTable tab).ipcExt ≠ k.ipcExt := by
  intro heq
  apply h
  rw [← ownTable_setOwnTable k tab]
  exact congrFun heq (k.extIndex k.current)

theorem translateCaps_false (k : Kernel) (handles : List ℕ) :
    (translateCaps false k handles).2 = k := by
  induction handles with
  | nil => rfl
  | cons h rest ih =>
    unfold translateCaps
    by_cases hh : (k.ownTable.resolve h).isNone
    · rw [if_pos hh]
    · rw [if_neg hh, if_neg Bool.false_ne_true]
      exact ih

theorem translateCaps_shrinks (transfer : Bool) (handles : List ℕ) (k : Kernel) :
    ∃ tab, (translateCaps transfer k handles).2 = k.setOwnTable tab ∧
      ∀ j, (tab.resolve j).isSome → (k.ownTable.resolve j).isSome := by
  induction handles generalizing k with
  | nil => exact ⟨k.ownTable, (setOwnTable_ownTable k).symm, fun _ => id⟩
  | cons i rest ih =>
    unfold translateCaps
    by_cases hi : (k.ownTable.resolve i).isNone
    · rw [if_pos hi]
      exact ⟨k.ownTable, (setOwnTable_ownTable k).symm, fun _ => id⟩
    · rw [if_neg hi]
      have hsome : (k.ownTable.resolve i).isSome :=
        isSome_iff_ne_none.mpr (mt isNone_iff_eq_none.mpr hi)
      cases transfer with
      | false => exact ih k
      | true =>
        obtain ⟨tab, htab, hle⟩ := ih (k.setOwnTable (k.ownTable.freeSlot i))
        rw [setOwnTable_setOwnTable] at htab
        refine ⟨tab, htab, fun j hj => ?_⟩
        have hfree := hle j hj
        rw [ownTable_setOwnTable, resolve_freeSlot _ hsome] at hfree
        exact hfree.2

theorem translateCaps_loses (k : Kernel) {i : ℕ} (rest : List ℕ)
    (hi : (k.ownTable.resolve i).isSome) :
    ∃ tab, tab ≠ k.ownTable ∧ (translateCaps true k (i :: rest)).2 = k.setOwnTable tab := by
  obtain ⟨tab, htab, hle⟩ :=
    translateCaps_shrinks true rest (k.setOwnTable (k.ownTable.freeSlot i))
  rw [setOwnTable_setOwnTable] at htab
  refine ⟨tab, ?_, ?_⟩
  · rintro rfl
    have hfree := hle i hi
    rw [ownTable_setOwnTable, resolve_freeSlot _ hi] at hfree
    exact hfree.1 rfl
  · unfold translateCaps
    rwa [if_neg (by simpa using isSome_iff_ne_none.mp hi), if_pos rfl]

/-- The send passes every check of the handle and of the message header. -/
structure SendChecked (k : Kernel) (handle : ℕ) (msg : IpcMsg) (ep : ℕ) : Prop where
  cap : ∃ c, k.resolveWith handle ipcCapRightSend = some c ∧ c.objectType = .endpoint ∧
    c.objectId = ep
  isOpen : (k.endpoints ep).state.isOpen
  wellFormed : IpcMsg.wellFormed msg

/-- The send gives capabilities away: the first listed one is valid. -/
structure GivesAway (k : Kernel) (msg : IpcMsg) (flags : UInt32) : Prop where
  transfer : flags &&& ipcMsgfCapTransfer ≠ 0
  capCount : 0 < msg.capCount
  first : (k.ownTable.resolve (msg.caps 0)).isSome

theorem translateCaps_of_not_givesAway (h : ¬ k.GivesAway msg flags) :
    (translateCaps (flags &&& ipcMsgfCapTransfer ≠ 0) k
      ((range msg.capCount).map msg.caps)).2 = k := by
  by_cases ht : flags &&& ipcMsgfCapTransfer ≠ 0
  · cases hn : msg.capCount with
    | zero => rfl
    | succ n =>
      have hfirst : (k.ownTable.resolve (msg.caps 0)).isNone := by
        by_contra hsome
        exact h ⟨ht, by omega, isSome_iff_ne_none.mpr (mt isNone_iff_eq_none.mpr hsome)⟩
      rw [range_succ_eq_map, map_cons]
      unfold translateCaps
      rw [if_pos hfirst]
  · rw [decide_eq_false ht]
    exact translateCaps_false k _

theorem translateCaps_of_givesAway (h : k.GivesAway msg flags) :
    ∃ tab, tab ≠ k.ownTable ∧ (translateCaps (flags &&& ipcMsgfCapTransfer ≠ 0) k
      ((range msg.capCount).map msg.caps)).2 = k.setOwnTable tab := by
  obtain ⟨n, hn⟩ := Nat.exists_eq_succ_of_ne_zero h.capCount.ne'
  rw [decide_eq_true h.transfer, hn, range_succ_eq_map, map_cons]
  exact translateCaps_loses k _ h.first

theorem sysIpcSend_of_not_checked (h : ∀ ep, ¬ k.SendChecked handle msg ep) :
    k.sysIpcSend handle msg flags = (-1, k) := by
  unfold sysIpcSend
  cases hc : k.resolveWith handle ipcCapRightSend with
  | none => rfl
  | some c =>
    dsimp only
    by_cases htype : c.objectType ≠ .endpoint
    · rw [if_pos htype]
    · rw [if_neg htype]
      by_cases hopen : (k.endpoints c.objectId).state.isOpen = false
      · rw [if_pos hopen]
      · have hwf : ¬ IpcMsg.wellFormed msg := fun hwf =>
          h c.objectId ⟨⟨c, hc, not_not.mp htype, rfl⟩, Bool.not_eq_false _ ▸ hopen, hwf⟩
        rw [if_neg hopen, if_pos hwf]

theorem SendChecked.failed {ep : ℕ} (h : k.SendChecked handle msg ep)
    (hno : ¬ (k.Translates msg flags ∧ (k.endpoints ep).msgCount < (k.endpoints ep).ringSize)) :
    (k.sysIpcSend handle msg flags).1 = -1 ∧
      Unsent (translateCaps (flags &&& ipcMsgfCapTransfer ≠ 0) k
        ((range msg.capCount).map msg.caps)).2 (k.sysIpcSend handle msg flags).2 := by
  obtain ⟨⟨c, hc, htype, rfl⟩, hopen, hwf⟩ := h
  have hep := endpoints_translateCaps (decide (flags &&& ipcMsgfCapTransfer ≠ 0))
    ((range msg.capCount).map msg.caps) k
  unfold sysIpcSend
  simp only [hc]
  rw [if_neg (by simp [htype]), if_neg (by simp [hopen]), if_neg (by simp [hwf])]
  by_cases htr : k.Translates msg flags
  · have hfull : ¬ ((k.endpoints c.objectId).state.isOpen ∧
        (k.endpoints c.objectId).msgCount < (k.endpoints c.objectId).ringSize) :=
      fun hok => hno ⟨htr, hok.2⟩
    rw [← hep] at hfull
    rw [if_pos ((translateCaps_iff k msg flags).mpr htr), ipcMsgEnqueue_fst, if_neg hfull]
    obtain ⟨n, hn⟩ := ipcMsgEnqueue_refused
      { msg with senderTask := (k.tasks k.current).id, senderCap := handle } hfull
    rw [hn]
    exact ⟨rfl, unsent_modifyEndpoint_drops _ _ n⟩
  · rw [if_neg (fun h => htr ((translateCaps_iff k msg flags).mp h))]
    exact ⟨rfl, .refl _⟩

/-- The send is accepted up to its handles, gives the first of them away, and then fails. -/
def LosesCapability (k : Kernel) (handle : ℕ) (msg : IpcMsg) (flags : UInt32) : Prop :=
  k.GivesAway msg flags ∧ ∃ ep, k.SendChecked handle msg ep ∧
    ¬ (k.Translates msg flags ∧ (k.endpoints ep).msgCount < (k.endpoints ep).ringSize)

end Kernel

open Kernel

/-- A failed send leaves tables and rings alone exactly when it is not one that gives a
capability away before a bad handle or a full ring is met. -/
theorem failed_send_atomic_iff (k : Kernel) (handle : ℕ) (msg : IpcMsg) (flags : UInt32) :
    ((k.sysIpcSend handle msg flags).1 < 0 → k.Unsent (k.sysIpcSend handle msg flags).2) ↔
      ¬ k.LosesCapability handle msg flags := by
  constructor
  · rintro hatomic ⟨hgive, ep, hcheck, hno⟩
    obtain ⟨hret, hrest⟩ := hcheck.failed hno
    obtain ⟨tab, hne, htab⟩ := translateCaps_of_givesAway hgive
    rw [htab] at hrest
    apply setOwnTable_ipcExt_ne hne
    rw [← hrest.ipcExt]
    exact (hatomic (by rw [hret]; decide)).ipcExt
  · intro hkeeps hneg
    by_cases hcheck : ∃ ep, k.SendChecked handle msg ep
    · obtain ⟨ep, hcheck⟩ := hcheck
      have hno : ¬ (k.Translates msg flags ∧
          (k.endpoints ep).msgCount < (k.endpoints ep).ringSize) := by
        rintro ⟨htr, hroom⟩
        have hok : k.Accepts handle msg flags ep :=
          ⟨hcheck.cap, hcheck.isOpen, hcheck.wellFormed, htr, hroom⟩
        rw [hok.send.1] at hneg
        exact absurd hneg (by decide)
      have hgive : ¬ k.GivesAway msg flags := fun hgive => hkeeps ⟨hgive, ep, hcheck, hno⟩
      have hrest := (hcheck.failed hno).2
      rwa [translateCaps_of_not_givesAway hgive] at hrest
    · rw [sysIpcSend_of_not_checked (not_exists.mp hcheck)]
      exact .refl k

/-- A thread that may send on a full endpoint and gives its root directory away. -/
def fullQueue : Kernel where
  ipcExt _ := ⟨fun i => if i = 0 then CapTable.initial.caps 0
    else if i = 1 then { objectType := .endpoint, rights := ipcCapRightSend, refCount := 1 }
    else {}, 2⟩
  endpoints _ := { type := .endpoint, state := .active, ringSize := 16, msgCount := 16 }

/-- The root directory is lost with a message that was not delivered. -/
theorem full_queue_loses_capability :
    let r := fullQueue.sysIpcSend 1 { magic := ipcMsgMagic, capCount := 1 } ipcMsgfCapTransfer
    r.1 = -1 ∧ (fullQueue.ownTable.resolve 0).isSome ∧ (r.2.ownTable.resolve 0).isNone := by
  decide +kernel

end SageOS
