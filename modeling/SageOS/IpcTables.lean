import SageOS.EndpointCreate
import SageOS.IpcCallFrame

/-!
# Slots and endpoints

Single slots of the capability tables under the steps that calls are made of, and the one endpoint
that creating a pair writes.
-/
namespace SageOS
open Function CapTable
namespace Kernel

def cap (k : Kernel) (x h : ℕ) : IpcCapability := (k.ipcExt x).caps h

variable {k k' : Kernel} {x h slot handle : ℕ} {c : IpcCapability} {right : UInt32}

theorem cap_congr (he : k'.ipcExt = k.ipcExt) : k'.cap = k.cap := by
  unfold cap
  rw [he]

theorem cap_setOwnTable (k : Kernel) (tab : CapTable) (x h : ℕ) :
    (k.setOwnTable tab).cap x h = if x = k.extIndex k.current then tab.caps h else k.cap x h := by
  unfold cap setOwnTable setCapTable
  dsimp only
  rw [update_apply]
  split_ifs <;> rfl

theorem cap_putCap (k : Kernel) (slot : ℕ) (c : IpcCapability) (x h : ℕ) :
    (k.putCap slot c).cap x h =
      if x = k.extIndex k.current ∧ h = slot then c else k.cap x h := by
  rw [putCap, cap_setOwnTable]
  by_cases hx : x = k.extIndex k.current
  · by_cases hh : h = slot
    · rw [if_pos hx, if_pos ⟨hx, hh⟩, hh, set_caps_self]
    · rw [if_pos hx, if_neg fun hb => hh hb.2, set_caps_of_ne _ hh, hx]
      rfl
  · rw [if_neg hx, if_neg fun hb => hx hb.1]

theorem cap_freeSlot (k : Kernel) (handle x h : ℕ) :
    (k.setOwnTable (k.ownTable.freeSlot handle)).cap x h =
      if x = k.extIndex k.current ∧ h = handle ∧ handle < ipcCapMaxPerTask then {}
      else k.cap x h := by
  rw [cap_setOwnTable, freeSlot]
  by_cases hx : x = k.extIndex k.current
  · rw [if_pos hx]
    by_cases hlt : handle < ipcCapMaxPerTask
    · rw [if_neg (by omega)]
      by_cases hh : h = handle
      · rw [if_pos ⟨hx, hh, hlt⟩, hh, set_caps_self]
      · rw [if_neg fun hb => hh hb.2.1, set_caps_of_ne _ hh, hx]
        rfl
    · rw [if_pos (by omega), if_neg fun hb => hlt hb.2.2, hx]
      rfl
  · rw [if_neg hx, if_neg fun hb => hx hb.1]

theorem of_resolve (hr : k.ownTable.resolve handle = some c) :
    handle < ipcCapMaxPerTask ∧ k.cap (k.extIndex k.current) handle = c ∧ c.isValid :=
  (resolve_eq_some_iff _).mp hr

theorem of_resolveWith (hr : k.resolveWith handle right = some c) :
    handle < ipcCapMaxPerTask ∧ k.cap (k.extIndex k.current) handle = c ∧ c.isValid ∧
      c.hasRight right := by
  obtain ⟨hres, hright⟩ := Option.filter_eq_some_iff.mp hr
  obtain ⟨hlt, hcap, hvalid⟩ := of_resolve hres
  exact ⟨hlt, hcap, hvalid, of_decide_eq_true hright⟩

theorem free_of_allocSlot (ha : k.ownTable.allocSlot = some slot) :
    slot < ipcCapMaxPerTask ∧ (k.cap (k.extIndex k.current) slot).objectType = .none := by
  obtain ⟨hlt, hfree, -⟩ := (allocSlot_eq_some_iff _).mp ha
  exact ⟨hlt, hfree⟩

theorem ipcExt_ipcWakeOne (k : Kernel) (ep : ℕ) : (k.ipcWakeOne ep).ipcExt = k.ipcExt := by
  unfold ipcWakeOne
  cases (k.endpoints ep).waitHead with
  | none => rfl
  | some w => exact (OnlyThreads.schedUnblock _ w).ipcExt

theorem ipcExt_ipcMsgEnqueue (k : Kernel) (ep : ℕ) (msg : IpcMsg) :
    (k.ipcMsgEnqueue ep msg).2.ipcExt = k.ipcExt := by
  unfold ipcMsgEnqueue
  dsimp only
  split_ifs
  · rfl
  · rfl
  · exact ipcExt_ipcWakeOne _ ep

theorem ipcExt_ipcWaitEnqueue (k : Kernel) (ep t : ℕ) :
    (k.ipcWaitEnqueue ep t).ipcExt = k.ipcExt := by
  unfold ipcWaitEnqueue
  dsimp only
  split_ifs <;> exact (OnlyThreads.linkWaiter k _ t).ipcExt

theorem ipcExt_portWaitEnqueue (k : Kernel) (port t : ℕ) :
    (k.portWaitEnqueue port t).ipcExt = k.ipcExt := by
  unfold portWaitEnqueue
  dsimp only
  split_ifs <;> exact (OnlyThreads.linkWaiter k _ t).ipcExt

theorem ipcExt_sysIpcRecv (k : Kernel) (handle : ℕ) (flags : UInt32) :
    (k.sysIpcRecv handle flags).2.ipcExt = k.ipcExt := by
  unfold sysIpcRecv
  cases k.resolveWith handle ipcCapRightRecv with
  | none => rfl
  | some c =>
    have hdeq := (Inert.ipcMsgDequeue k c.objectId).ipcExt
    dsimp only
    split_ifs
    · rfl
    · exact hdeq
    · exact (OnlyThreads.schedBlock _).ipcExt.trans ((ipcExt_ipcWaitEnqueue _ _ _).trans hdeq)
    · exact hdeq

theorem ipcExt_drainPass (k : Kernel) (ep : ℕ) : (k.drainPass ep).2.ipcExt = k.ipcExt := by
  unfold drainPass
  by_cases hempty : (k.endpoints ep).msgCount = 0
  · split_ifs <;> rfl
  · rw [if_neg hempty]
    exact (OnlyThreads.schedSchedule k).ipcExt

theorem cap_translateCaps (transfer : Bool) (handles : List ℕ) (k : Kernel) (x h : ℕ) :
    (translateCaps transfer k handles).2.cap x h = k.cap x h ∨
      transfer = true ∧ x = k.extIndex k.current ∧ h ∈ handles ∧
        (translateCaps transfer k handles).2.cap x h = {} := by
  induction handles generalizing k with
  | nil => exact .inl rfl
  | cons j rest ih =>
    unfold translateCaps
    split_ifs with hres ht
    · exact .inl rfl
    · have hfree := cap_freeSlot k j x h
      rcases ih (k.setOwnTable (k.ownTable.freeSlot j)) with hkept | ⟨_, hx, hmem, hnil⟩
      · by_cases hj : x = k.extIndex k.current ∧ h = j ∧ j < ipcCapMaxPerTask
        · rw [if_pos hj] at hfree
          exact .inr ⟨ht, hj.1, by simp [hj.2.1], hkept.trans hfree⟩
        · rw [if_neg hj] at hfree
          exact .inl (hkept.trans hfree)
      · exact .inr ⟨ht, hx, List.mem_cons_of_mem j hmem, hnil⟩
    · rcases ih k with hkept | ⟨htr, hx, hmem, hnil⟩
      · exact .inl hkept
      · exact absurd htr ht

end Kernel

namespace Kernel
variable {k k' k'' : Kernel} {ep : ℕ}

/-- Only endpoint `ep` is written, and it keeps its id. -/
structure OnlyEndpoint (ep : ℕ) (k k' : Kernel) : Prop where
  frame : ∀ j, j ≠ ep → k'.endpoints j = k.endpoints j
  id : (k'.endpoints ep).id = (k.endpoints ep).id

namespace OnlyEndpoint

theorem of_eq (h : k'.endpoints = k.endpoints) : OnlyEndpoint ep k k' :=
  ⟨fun j _ => congrFun h j, by rw [h]⟩

section
variable (h : OnlyEndpoint ep k k')

include h

theorem trans (h' : OnlyEndpoint ep k' k'') : OnlyEndpoint ep k k'' :=
  ⟨fun j hj => (h'.frame j hj).trans (h.frame j hj), h'.id.trans h.id⟩

theorem then_modify {f : IpcEndpoint → IpcEndpoint}
    (hf : ∀ e, (f e).id = e.id) : OnlyEndpoint ep k (k'.modifyEndpoint ep f) := by
  refine ⟨fun j hj => (update_of_ne hj _ _).trans (h.frame j hj), ?_⟩
  change (update k'.endpoints ep (f (k'.endpoints ep)) ep).id = _
  rw [update_self, hf, h.id]

theorem then_ringAlloc : OnlyEndpoint ep k (k'.ringAlloc ep) := by
  unfold ringAlloc
  cases k'.arena.sageMalloc (ipcMsgSize * ipcRingSize) with
  | none =>
    apply h.then_modify
    exact fun _ => rfl
  | some r =>
    apply then_modify
    · exact h.trans (of_eq rfl)
    · exact fun _ => rfl

theorem then_killPair : OnlyEndpoint ep k (k'.killPair ep ep) := by
  apply then_modify
  · apply h.then_modify
    exact fun _ => rfl
  · exact fun _ => rfl

theorem then_linkPair : OnlyEndpoint ep k (k'.linkPair ep ep) := by
  unfold linkPair
  apply then_modify
  · apply h.then_modify
    exact fun _ => rfl
  · exact fun _ => rfl

end

theorem allocRings (k : Kernel) : OnlyEndpoint ep k (k.allocRings ep ep).2 := by
  have hsize : OnlyEndpoint ep k ((k.modifyEndpoint ep fun e =>
      { e with ringSize := ipcRingSize }).modifyEndpoint ep fun e =>
        { e with ringSize := ipcRingSize }) := by
    apply then_modify
    · apply then_modify (of_eq rfl)
      exact fun _ => rfl
    · exact fun _ => rfl
  have hrings := hsize.then_ringAlloc.then_ringAlloc
  unfold Kernel.allocRings
  dsimp only
  split_ifs
  · apply then_killPair
    exact hrings.trans (of_eq rfl)
  · exact hrings

end OnlyEndpoint

theorem of_ipcAllocEndpoint (h : k.ipcAllocEndpoint = some (ep, k')) :
    (k'.endpoints ep).id = ep ∧ (∀ j, j ≠ ep → k'.endpoints j = k.endpoints j) ∧
      (k.endpoints ep).state.isFree = true ∧ ∀ j < ep, (k.endpoints j).state.isFree = false := by
  obtain ⟨i, hi, he⟩ := Option.map_eq_some_iff.mp h
  obtain ⟨rfl, rfl⟩ := Prod.mk.inj he
  obtain ⟨hfree, -, hfirst⟩ := List.find?_range_eq_some.mp hi
  refine ⟨?_, fun j hj => update_of_ne hj _ _, hfree, fun j hj => by simpa using hfirst j hj⟩
  simp [setEndpoint]

end Kernel
end SageOS
