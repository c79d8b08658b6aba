import SageOS.IpcFrame

/-!
# Creating a pair of endpoints

A pair should be two free slots of the caller's table, one to send and one to receive on a fresh
channel. Neither allocator reserves what it returns: the pool entry is still `CONSTRUCTED` and the
slot still `NONE` when the second one is asked for. So both endpoints are one entry, both handles
are one slot, and every call that succeeds breaks the contract.
-/
namespace SageOS.Kernel
open List Option CapTable
variable (k : Kernel)

/-- The contract of a successful call that takes `k` to `k'` and returns the two handles. -/
structure FreshPair (k' : Kernel) (send recv : ℕ) : Prop where
  ne : send ≠ recv
  send_lt : send < ipcCapMaxPerTask
  recv_lt : recv < ipcCapMaxPerTask
  send_free : (k.ownTable.caps send).objectType = .none
  recv_free : (k.ownTable.caps recv).objectType = .none
  send_cap : (k'.ownTable.caps send).isValid ∧ (k'.ownTable.caps send).objectType = .endpoint ∧
    (k'.ownTable.caps send).hasRight ipcCapRightSend
  recv_cap : (k'.ownTable.caps recv).isValid ∧ (k'.ownTable.caps recv).objectType = .endpoint ∧
    (k'.ownTable.caps recv).hasRight ipcCapRightRecv
  slots : ∀ i, i ≠ send → i ≠ recv → k'.ownTable.caps i = k.ownTable.caps i
  endpoints : ∀ i, (k.endpoints i).state.isFree = false → k'.endpoints i = k.endpoints i
  delivers : ∀ msg flags, IpcMsg.wellFormed msg → flags &&& ipcMsgfCapTransfer = 0 →
    (∀ i < msg.capCount, (k'.ownTable.resolve (msg.caps i)).isSome) →
    (k'.sysIpcSend send msg flags).1 = 0 ∧ ∀ flags',
      ((k'.sysIpcSend send msg flags).2.sysIpcRecv recv flags').1 =
        .message { msg with senderTask := (k.tasks k.current).id, senderCap := send }

/-- Every call from `k` that returns handles returns a fresh pair. -/
def CreatesFreshPair : Prop :=
  ∀ send recv, k.sysIpcEndpointCreate.1 = .handles send recv →
    k.FreshPair k.sysIpcEndpointCreate.2 send recv

/-- Two rings can be allocated one after the other. -/
def HasTwoRings : Prop :=
  ∃ r₁ r₂, k.arena.sageMalloc (ipcMsgSize * ipcRingSize) = some r₁ ∧
    r₁.2.sageMalloc (ipcMsgSize * ipcRingSize) = some r₂

/-- The resources that the call needs: a free endpoint, memory for two rings and a free slot. -/
def CanCreate : Prop :=
  (∃ i < ipcMaxEndpoints, (k.endpoints i).state.isFree) ∧ k.HasTwoRings ∧
    ∃ i < ipcCapMaxPerTask, (k.ownTable.caps i).objectType = .none

variable {k} {k' : Kernel} {ep : ℕ}

theorem ipcAllocEndpoint_isSome_iff :
    k.ipcAllocEndpoint.isSome ↔ ∃ i < ipcMaxEndpoints, (k.endpoints i).state.isFree := by
  unfold ipcAllocEndpoint
  rw [isSome_map, find?_isSome]
  simp only [mem_range]

theorem ipcAllocEndpoint_again (h : k.ipcAllocEndpoint = some (ep, k')) :
    k'.ipcAllocEndpoint = some (ep, k') := by
  obtain ⟨i, hi, he⟩ := map_eq_some_iff.mp h
  obtain ⟨rfl, rfl⟩ := Prod.mk.inj he
  obtain ⟨-, hlt, hfirst⟩ := find?_range_eq_some.mp hi
  unfold ipcAllocEndpoint
  rw [map_eq_some_iff]
  refine ⟨i, find?_range_eq_some.mpr ⟨?_, hlt, fun j hj => ?_⟩, ?_⟩
  · simp [setEndpoint, IpcLifecycleState.isFree]
  · have hfree := hfirst j hj
    have hji : j ≠ i := by omega
    simpa [setEndpoint, hji] using hfree
  · simp [setEndpoint]

theorem arena_ipcAllocEndpoint (h : k.ipcAllocEndpoint = some (ep, k')) : k'.arena = k.arena := by
  obtain ⟨i, -, he⟩ := map_eq_some_iff.mp h
  obtain ⟨-, rfl⟩ := Prod.mk.inj he
  rfl

theorem ringAlloc_msgRing (k : Kernel) (ep : ℕ) : ((k.ringAlloc ep).endpoints ep).msgRing =
    (k.arena.sageMalloc (ipcMsgSize * ipcRingSize)).map (·.1) := by
  unfold ringAlloc
  cases k.arena.sageMalloc (ipcMsgSize * ipcRingSize) with
  | none => simp [modifyEndpoint, setEndpoint]
  | some r => simp [modifyEndpoint, setEndpoint]

theorem ringAlloc_arena (k : Kernel) (ep : ℕ) : (k.ringAlloc ep).arena =
    (k.arena.sageMalloc (ipcMsgSize * ipcRingSize)).elim k.arena (·.2) := by
  unfold ringAlloc
  cases k.arena.sageMalloc (ipcMsgSize * ipcRingSize) with
  | none => rfl
  | some r => rfl

/-- On one entry the second ring replaces the first, so only the second allocation is checked;
after a failure of the first it fails as well. -/
theorem allocRings_self_iff (k : Kernel) (ep : ℕ) : (k.allocRings ep ep).1 ↔ k.HasTwoRings := by
  set k₁ := (k.modifyEndpoint ep fun e => { e with ringSize := ipcRingSize }).modifyEndpoint ep
    fun e => { e with ringSize := ipcRingSize } with hk₁
  have harena : k₁.arena = k.arena := rfl
  have hring := ringAlloc_msgRing (k₁.ringAlloc ep) ep
  rw [ringAlloc_arena, harena] at hring
  have hok : (k.allocRings ep ep).1 ↔
      (((k₁.ringAlloc ep).ringAlloc ep).endpoints ep).msgRing ≠ none := by
    unfold allocRings
    dsimp only
    split_ifs with h
    · simpa using h
    · simpa using h
  rw [hok, hring]
  unfold HasTwoRings
  cases h₁ : k.arena.sageMalloc (ipcMsgSize * ipcRingSize) with
  | none => simp [h₁]
  | some r₁ => simp [ne_none_iff_exists', -Prod.exists]

theorem SameThreads.ownTable (h : SameThreads k k') : k'.ownTable = k.ownTable := by
  unfold Kernel.ownTable capTable extIndex
  rw [h.tasks, h.current, h.ipcExt]

theorem allocSlot_isSome_iff (tab : CapTable) :
    tab.allocSlot.isSome ↔ ∃ i < ipcCapMaxPerTask, (tab.caps i).objectType = .none := by
  unfold allocSlot
  rw [find?_isSome]
  simp only [mem_range, decide_eq_true_eq]

theorem ownTable_putCap (k : Kernel) (slot : ℕ) (cap : IpcCapability) :
    (k.putCap slot cap).ownTable = k.ownTable.set slot cap := by
  exact setCapTable_capTable_self k k.current _

theorem insertPair_of_allocSlot {slot : ℕ} (h : k.ownTable.allocSlot = some slot) (send recv : ℕ) :
    (k.insertPair send recv).1 = .handles slot slot ∧
      (k.insertPair send recv).2.ownTable.caps slot =
        k.endpointCap (ipcCapRightRecv ||| ipcCapRightDup) (k.endpoints recv).id := by
  unfold insertPair
  simp only [h, true_and]
  rw [ownTable_putCap, set_caps_self]

theorem insertPair_of_full (h : k.ownTable.allocSlot = none) (send recv : ℕ) :
    (k.insertPair send recv).1 = .ret (-1) := by
  unfold insertPair
  simp only [h]

theorem sysIpcEndpointCreate_of_alloc (h : k.ipcAllocEndpoint = some (ep, k')) :
    k.sysIpcEndpointCreate = if (k'.allocRings ep ep).1 then
      ((k'.allocRings ep ep).2.linkPair ep ep).insertPair ep ep
      else (.ret (-1), (k'.allocRings ep ep).2) := by
  unfold sysIpcEndpointCreate
  simp only [h, ipcAllocEndpoint_again h]

theorem hasTwoRings_congr (h : k'.arena = k.arena) : k'.HasTwoRings ↔ k.HasTwoRings := by
  unfold HasTwoRings
  rw [h]

theorem ownTable_linked (h : k.ipcAllocEndpoint = some (ep, k')) :
    ((k'.allocRings ep ep).2.linkPair ep ep).ownTable = k.ownTable :=
  (((Inert.ipcAllocEndpoint h).trans (.allocRings k' ep ep)).trans (.linkPair _ ep ep)).ownTable

theorem sysIpcEndpointCreate_of_canCreate (h : k.CanCreate) :
    ∃ slot, k.ownTable.allocSlot = some slot ∧ k.sysIpcEndpointCreate.1 = .handles slot slot ∧
      ¬ (k.sysIpcEndpointCreate.2.ownTable.caps slot).hasRight ipcCapRightSend := by
  obtain ⟨hep, hrings, hslot⟩ := h
  obtain ⟨⟨ep, k'⟩, halloc⟩ := isSome_iff_exists.mp (ipcAllocEndpoint_isSome_iff.mpr hep)
  obtain ⟨slot, hfree⟩ := isSome_iff_exists.mp ((allocSlot_isSome_iff k.ownTable).mpr hslot)
  have hok := (allocRings_self_iff k' ep).mpr
    ((hasTwoRings_congr (arena_ipcAllocEndpoint halloc)).mpr hrings)
  rw [sysIpcEndpointCreate_of_alloc halloc, if_pos hok]
  obtain ⟨hret, hcap⟩ := insertPair_of_allocSlot ((ownTable_linked halloc).symm ▸ hfree) ep ep
  refine ⟨slot, hfree, hret, ?_⟩
  rw [hcap]
  change ¬ ((ipcCapRightRecv ||| ipcCapRightDup) &&& ipcCapRightSend ≠ 0)
  decide

theorem sysIpcEndpointCreate_of_not_canCreate (h : ¬ k.CanCreate) :
    k.sysIpcEndpointCreate.1 = .ret (-1) := by
  cases halloc : k.ipcAllocEndpoint with
  | none =>
    unfold sysIpcEndpointCreate
    simp only [halloc]
  | some r =>
    obtain ⟨ep, k'⟩ := r
    have hep := ipcAllocEndpoint_isSome_iff.mp (isSome_of_eq_some halloc)
    rw [sysIpcEndpointCreate_of_alloc halloc]
    split_ifs with hok
    · have hrings := (hasTwoRings_congr (arena_ipcAllocEndpoint halloc)).mp
        ((allocRings_self_iff k' ep).mp hok)
      refine insertPair_of_full ?_ ep ep
      rw [ownTable_linked halloc, ← not_isSome_iff_eq_none, allocSlot_isSome_iff]
      exact fun hslot => h ⟨hep, hrings, hslot⟩
    · rfl

/-- The contract of the call holds exactly in the states in which it has to fail. -/
theorem createsFreshPair_iff (k : Kernel) : k.CreatesFreshPair ↔ ¬ k.CanCreate := by
  constructor
  · intro hpair hcan
    obtain ⟨slot, -, hret, -⟩ := sysIpcEndpointCreate_of_canCreate hcan
    exact (hpair slot slot hret).ne rfl
  · intro hnot send recv hret
    rw [sysIpcEndpointCreate_of_not_canCreate hnot] at hret
    cases hret

theorem sysIpcSend_of_not_hasRight {slot : ℕ}
    (h : ¬ (k.ownTable.caps slot).hasRight ipcCapRightSend) (msg : IpcMsg) (flags : UInt32) :
    (k.sysIpcSend slot msg flags).1 = -1 := by
  have hnone : k.resolveWith slot ipcCapRightSend = none := by
    unfold resolveWith
    rw [filter_eq_none_iff]
    intro cap hcap
    obtain ⟨-, rfl, -⟩ := (resolve_eq_some_iff _).mp hcap
    simpa using h
  unfold sysIpcSend
  simp only [hnone]

theorem canCreate_boot : boot.CanCreate := by
  have hrings : ((boot.arena.sageMalloc (ipcMsgSize * ipcRingSize)).bind
      fun r => r.2.sageMalloc (ipcMsgSize * ipcRingSize)).isSome := by
    decide +kernel
  obtain ⟨r₂, hr₂⟩ := isSome_iff_exists.mp hrings
  obtain ⟨r₁, hr₁, hnext⟩ := bind_eq_some_iff.mp hr₂
  exact ⟨⟨0, by decide, rfl⟩, ⟨r₁, r₂, hr₁, hnext⟩, ⟨0, by decide, rfl⟩⟩

/-- The first call after boot returns slot 0 twice, and sending through it is refused. -/
theorem first_pair_is_one_slot :
    boot.sysIpcEndpointCreate.1 = .handles 0 0 ∧ ¬ boot.CreatesFreshPair ∧
      (boot.sysIpcEndpointCreate.2.sysIpcSend 0 { magic := ipcMsgMagic } 0).1 = -1 := by
  obtain ⟨slot, hfree, hret, hright⟩ := sysIpcEndpointCreate_of_canCreate canCreate_boot
  have hslot : slot = 0 := by
    have h0 : boot.ownTable.allocSlot = some 0 := by decide
    exact some.inj (hfree.symm.trans h0)
  subst hslot
  exact ⟨hret, fun hpair => (hpair 0 0 hret).ne rfl, sysIpcSend_of_not_hasRight hright _ _⟩

end SageOS.Kernel
