import SageOS.RightsFlow

/-!
# A reference count that wraps around

A task that duplicates a capability and frees the original, over and over, ends with a capability
whose count is 0: it names the object and is not valid. If the slot is registered under a name, a
lookup copies it with count 1, and the task holds a right that nobody held.
-/
namespace SageOS.CountWrap
open Kernel GuardedRun IpcEvent List CapTable

/-- The right to send to endpoint 0, which is what freeing a slot takes. -/
def sendCap : IpcCapability where
  rights := ipcCapRightSend
  objectType := .endpoint
  refCount := 1

def recvCap (n : UInt32) : IpcCapability where
  rights := ipcCapRightRecv ||| ipcCapRightDup
  objectType := .endpoint
  objectId := 1
  refCount := n

def table (slot : ℕ) (n : UInt32) : CapTable where
  caps i := if i = 0 then sendCap else if i = slot then recvCap n else {}
  nextFree := 0

theorem caps_table (slot : ℕ) (n : UInt32) (h : ℕ) :
    (table slot n).caps h = sendCap ∨ (table slot n).caps h = recvCap n ∨
      (table slot n).caps h = {} := by
  unfold table
  dsimp only
  split_ifs <;> simp

def withTable (k : Kernel) (tab : CapTable) : Kernel :=
  { k with current := 0, ipcExt := fun x => if x = 0 then tab else CapTable.empty }

structure Ready (k : Kernel) : Prop where
  id : (k.tasks 0).id = 0
  live : k.live 0
  active : (k.endpoints 0).state = .active

/-- A message that frees the slot, and is then refused for its second handle. -/
def freeing (slot : ℕ) : IpcMsg where
  magic := ipcMsgMagic
  capCount := 2
  caps i := if i = 0 then slot else 63

def dupEvent (slot : ℕ) : IpcEvent := ⟨0, .capDup slot⟩

def freeEvent (slot : ℕ) : IpcEvent := ⟨0, .send 0 (freeing slot) ipcMsgfCapTransfer⟩

variable {k : Kernel} {tab : CapTable} {slot : ℕ} {n : UInt32}

theorem extIndex_withTable (hk : Ready k) : (withTable k tab).extIndex 0 = 0 := by
  change (k.tasks 0).id % schedMaxThreads = 0
  rw [hk.id]
  rfl

theorem ownTable_withTable (hk : Ready k) : (withTable k tab).ownTable = tab := by
  change (withTable k tab).ipcExt ((withTable k tab).extIndex 0) = tab
  rw [extIndex_withTable hk]
  rfl

theorem setOwnTable_withTable (hk : Ready k) (tab' : CapTable) :
    (withTable k tab).setOwnTable tab' = withTable k tab' := by
  change (withTable k tab).setCapTable 0 tab' = withTable k tab'
  unfold setCapTable
  rw [extIndex_withTable hk]
  congr 1
  funext x
  rw [Function.update_apply]
  split_ifs with hx
  · rfl
  · exact if_neg hx

theorem resolve_slot (hn : 0 < n) (hslot : slot = 1 ∨ slot = 2) :
    (table slot n).resolve slot = some (recvCap n) := by
  refine (resolve_eq_some_iff _).mpr ⟨?_, ?_, nofun, hn⟩
  · rcases hslot with rfl | rfl <;> decide
  · rcases hslot with rfl | rfl <;> rfl

theorem allocSlot_table (hslot : slot = 1 ∨ slot = 2) :
    (table slot n).allocSlot = some (3 - slot) := by
  refine (allocSlot_eq_some_iff _).mpr ⟨?_, ?_, fun j hj => ?_⟩
  · rcases hslot with rfl | rfl <;> decide
  · rcases hslot with rfl | rfl <;> rfl
  · rcases hslot with rfl | rfl
    · rcases (by omega : j = 0 ∨ j = 1) with rfl | rfl <;> exact nofun
    · obtain rfl : j = 0 := by omega
      exact nofun

def fullTable (slot : ℕ) (n : UInt32) : CapTable := (table slot n).set (3 - slot) (recvCap (n + 1))

theorem step_dup (hk : Ready k) (hn : 0 < n) (hslot : slot = 1 ∨ slot = 2) :
    step (withTable k (table slot n)) (dupEvent slot) = withTable k (fullTable slot n) := by
  have hright : (recvCap n).hasRight ipcCapRightDup := by
    change (ipcCapRightRecv ||| ipcCapRightDup) &&& ipcCapRightDup ≠ 0
    decide
  have hres : (withTable k (table slot n)).resolveWith slot ipcCapRightDup = some (recvCap n) := by
    unfold resolveWith
    rw [ownTable_withTable hk, resolve_slot hn hslot]
    exact Option.filter_some_pos (decide_eq_true hright)
  change ((withTable k (table slot n)).sysIpcCapDup slot).2 = _
  unfold sysIpcCapDup
  rw [hres, ownTable_withTable hk, allocSlot_table hslot]
  dsimp only
  unfold putCap
  rw [ownTable_withTable hk, setOwnTable_withTable hk]
  rfl

theorem freeSlot_fullTable (hslot : slot = 1 ∨ slot = 2) :
    (fullTable slot n).freeSlot slot = table (3 - slot) (n + 1) := by
  have hlt : ¬ ipcCapMaxPerTask ≤ slot := by
    rcases hslot with rfl | rfl <;> decide
  unfold CapTable.freeSlot fullTable CapTable.set table
  rw [if_neg hlt]
  congr 1
  funext i
  rcases hslot with rfl | rfl <;> grind

theorem step_free (hk : Ready k) (hn : 0 < n) (hslot : slot = 1 ∨ slot = 2) :
    step (withTable k (fullTable slot n)) (freeEvent slot) =
      withTable k (table (3 - slot) (n + 1)) := by
  have hsend : (withTable k (fullTable slot n)).resolveWith 0 ipcCapRightSend = some sendCap := by
    have hzero : (fullTable slot n).resolve 0 = some sendCap := by
      refine (resolve_eq_some_iff _).mpr ⟨by decide, ?_, nofun, by decide⟩
      rcases hslot with rfl | rfl <;> rfl
    unfold resolveWith
    rw [ownTable_withTable hk, hzero]
    rfl
  have hfirst : (fullTable slot n).resolve slot = some (recvCap n) := by
    refine (resolve_eq_some_iff _).mpr ⟨?_, ?_, nofun, hn⟩
    · rcases hslot with rfl | rfl <;> decide
    · rcases hslot with rfl | rfl <;> rfl
  have hsecond : (table (3 - slot) (n + 1)).resolve 63 = none := by
    rcases hslot with rfl | rfl <;> rfl
  have htr : translateCaps (decide (ipcMsgfCapTransfer &&& ipcMsgfCapTransfer ≠ 0))
      (withTable k (fullTable slot n))
      ((range (freeing slot).capCount).map (freeing slot).caps) =
        (false, withTable k (table (3 - slot) (n + 1))) := by
    change translateCaps true (withTable k (fullTable slot n)) [slot, 63] = _
    rw [translateCaps, ownTable_withTable hk, hfirst, if_neg (by simp), if_pos rfl,
      setOwnTable_withTable hk, freeSlot_fullTable hslot, translateCaps, ownTable_withTable hk,
      hsecond]
    rfl
  have hopen :
      ((withTable k (fullTable slot n)).endpoints sendCap.objectId).state.isOpen = true := by
    change (k.endpoints 0).state.isOpen = true
    rw [hk.active]
    rfl
  have hwf : IpcMsg.wellFormed (freeing slot) :=
    ⟨rfl, Nat.zero_le _, show 2 ≤ ipcMsgMaxCaps by decide⟩
  change ((withTable k (fullTable slot n)).sysIpcSend 0 (freeing slot) ipcMsgfCapTransfer).2 = _
  unfold sysIpcSend
  rw [hsend]
  dsimp only
  rw [if_neg (by simp [sendCap]), if_neg (by simp [hopen]), if_neg (not_not.mpr hwf)]
  rw [htr]
  rfl

/-- One duplication and one release move the capability to the other slot and count it up. -/
theorem run_dup_free (hk : Ready k) (hn : 0 < n) (hslot : slot = 1 ∨ slot = 2) :
    run step (withTable k (table slot n)) [dupEvent slot, freeEvent slot] =
      withTable k (table (3 - slot) (n + 1)) := by
  rw [run_cons, run_cons, step_dup hk hn hslot, step_free hk hn hslot]
  rfl

def slotAt (m : ℕ) : ℕ := if m % 2 = 0 then 1 else 2

theorem slotAt_eq (m : ℕ) : slotAt m = 1 ∨ slotAt m = 2 := by
  unfold slotAt
  split_ifs <;> simp

theorem slotAt_succ (m : ℕ) : slotAt (m + 1) = 3 - slotAt m := by
  unfold slotAt
  split_ifs <;> omega

theorem exists_run (hk : Ready k) (m : ℕ) (hm : m ≤ 2 ^ 32 - 2) :
    ∃ es, (∀ e ∈ es, e.task = 0) ∧ run step (withTable k (table 1 2)) es =
      withTable k (table (slotAt m) (UInt32.ofNat (m + 2))) := by
  induction m with
  | zero => exact ⟨[], nofun, rfl⟩
  | succ m ih =>
    obtain ⟨es, htask, hes⟩ := ih (by omega)
    have hn : 0 < UInt32.ofNat (m + 2) := by
      change 0 < (m + 2) % 2 ^ 32
      omega
    refine ⟨es ++ [dupEvent (slotAt m), freeEvent (slotAt m)], fun e he => ?_, ?_⟩
    · rcases mem_append.mp he with he | he
      · exact htask e he
      · rcases mem_pair.mp he with rfl | rfl <;> rfl
    · rw [run_append, hes, run_dup_free hk hn (slotAt_eq m), slotAt_succ, ← UInt32.ofNat_one,
        ← UInt32.ofNat_add]

def begin : Kernel :=
  withTable { boot with endpoints := fun i => { id := i, state := .active } } (table 2 1)

def registerEvent : IpcEvent := ⟨0, .nsRegister (bytes "a") 1⟩

def lookupEvent : IpcEvent := ⟨0, .nsLookup (bytes "a")⟩

def registered : Kernel :=
  step (withTable { boot with endpoints := fun i => { id := i, state := .active } } (table 1 2))
    registerEvent

theorem registered_sameThreads : SameThreads
    (withTable { boot with endpoints := fun i => { id := i, state := .active } } (table 1 2))
    registered :=
  IpcCall.nsRegister_sameThreads _ (bytes "a") 1

theorem withTable_eq_self (hcur : k.current = 0)
    (hext : k.ipcExt = fun x => if x = 0 then tab else CapTable.empty) : withTable k tab = k := by
  cases k
  cases hcur
  cases hext
  rfl

theorem ready_registered : Ready registered :=
  ⟨by rw [registered_sameThreads.tasks]; rfl, by rw [live, registered_sameThreads.tasks]; decide,
    by decide⟩

theorem not_holds_wrapped (right : UInt32) :
    ¬ (withTable registered (table 1 0)).Holds .endpoint 1 right := by
  rintro ⟨i, -, hlive, h, -, hvalid, -, hid, -⟩
  have hi : i = 0 := by
    by_contra hne
    apply hlive
    change (Function.update (fun _ => ({} : Thread)) 0 idleThread i).state = .unused
    rw [Function.update_of_ne hne]
  subst hi
  change ((table 1 0).caps h).isValid at hvalid
  change ((table 1 0).caps h).objectId = 1 at hid
  rcases caps_table 1 0 h with hcap | hcap | hcap
  · rw [hcap] at hid
    cases hid
  · rw [hcap] at hvalid
    exact absurd hvalid.2 (by decide)
  · rw [hcap] at hvalid
    exact IpcCapability.not_isValid_default hvalid

theorem sound_begin : begin.Sound := by
  refine ⟨fun x h htype => ?_, fun i => show 0 < ipcCapMaxPerTask by decide⟩
  by_cases hx : x = 0
  · subst hx
    change ((table 2 1).caps h).objectType ≠ .none at htype
    change 0 < ((table 2 1).caps h).refCount
    rcases caps_table 2 1 h with hcap | hcap | hcap
    · rw [hcap]
      decide
    · rw [hcap]
      decide
    · rw [hcap] at htype
      exact absurd rfl htype
  · have hcap : begin.cap x h = {} := by
      change (if x = 0 then table 2 1 else CapTable.empty).caps h = {}
      rw [if_neg hx]
      rfl
    rw [hcap] at htype
    exact absurd rfl htype

/-- From a state in which every count is 1 a run of one task comes to a lookup after which it holds
the right to receive on an endpoint on which nobody held any right. -/
theorem lookup_amplifies : begin.Sound ∧ ∃ pre, (∀ e ∈ pre, e.task = 0) ∧
      (∀ right, ¬ (run step begin pre).Holds .endpoint 1 right) ∧
      (step (run step begin pre) lookupEvent).Holds .endpoint 1 ipcCapRightRecv ∧
      lookupEvent.call.created (lookupEvent.start (run step begin pre)) = none := by
  have hready : Ready { boot with endpoints := fun i => { id := i, state := .active } } :=
    ⟨rfl, nofun, rfl⟩
  obtain ⟨es, htask, hes⟩ := exists_run ready_registered (2 ^ 32 - 2) le_rfl
  have hrun : run step begin ([dupEvent 2, freeEvent 2] ++ registerEvent :: es) =
      withTable registered (table 1 0) := by
    rw [run_append, begin, run_dup_free hready (by decide) (.inr rfl), run_cons]
    change run step registered es = _
    rw [← withTable_eq_self registered_sameThreads.current registered_sameThreads.ipcExt, hes]
    rfl
  refine ⟨sound_begin, [dupEvent 2, freeEvent 2] ++ registerEvent :: es, fun e he => ?_, ?_, ?_,
    rfl⟩
  · rcases mem_append.mp he with he | he
    · rcases mem_pair.mp he with rfl | rfl <;> rfl
    · rcases mem_cons.mp he with rfl | he
      · rfl
      · exact htask e he
  · rw [hrun]
    exact not_holds_wrapped
  · rw [hrun]
    have hidx : (step (withTable registered (table 1 0)) lookupEvent).extIndex 0 = 0 := by
      decide
    refine ⟨0, by decide, ?_, 2, by decide, ?_⟩
    · unfold live
      nofun
    · decide

end SageOS.CountWrap
