import SageOS.ServiceEntry

/-!
# Looking up a service

A lookup grants what the latest registration of the name held, when the name is neither a proper
beginning of another registered name nor shares its entry with another one, names fit their buffer,
and no slot that is registered is freed in between. Otherwise it copies whatever slot an entry
happens to name: the entry of a name that was never registered names slot 0 of thread 0.
-/
namespace SageOS
open Kernel GuardedRun PathGraph List

abbrev ServiceState := Kernel × List Registration

namespace ServiceState
open Registration

def step (s : ServiceState) (e : IpcEvent) : ServiceState :=
  (IpcEvent.step s.1 e, s.2 ++ (ofCall (e.start s.1) e.call).toList)

def attempts (s : ServiceState) : List NsAttempt := s.2.map attempt

/-- Names fit, no name that was tried leads to or through the entry of another one that is looked
up, and no registered slot is freed. -/
structure Careful (s : ServiceState) (e : IpcEvent) : Prop where
  register : ∀ name handle, e.call = .nsRegister name handle → FitsName name
  lookup : ∀ name, e.call = .nsLookup name → FitsName name ∧
    ∀ reg ∈ s.2, NsAttempt.canonical s.attempts (dotTokens name) <+:
      NsAttempt.canonical s.attempts (dotTokens reg.name) → SameName reg.name name
  frees : ∀ reg, Current s.2 reg → s.1.extIndex e.task = reg.attempt.owner % schedMaxThreads →
    reg.attempt.handle ∉ e.call.frees

/-- A lookup that returns a handle grants what the latest registration of the name held. -/
def Grants (s : ServiceState) (e : IpcEvent) : Prop :=
  ∀ name slot, e.call = .nsLookup name →
    ((e.start s.1).sysIpcNsLookup name).1 = .handle slot →
    ∃ reg, Current s.2 reg ∧ SameName reg.name name ∧
      ((step s e).1.cap (s.1.extIndex e.task) slot).objectType = reg.cap.objectType ∧
      ((step s e).1.cap (s.1.extIndex e.task) slot).objectId = reg.cap.objectId ∧
      ((step s e).1.cap (s.1.extIndex e.task) slot).rights &&&
          (reg.cap.rights &&& ~~~(ipcCapRightRevoke ||| ipcCapRightDup)) =
        ((step s e).1.cap (s.1.extIndex e.task) slot).rights

/-- The log describes the name space and the registered slots. -/
structure Logged (s : ServiceState) : Prop where
  rep : NsRep s.1 s.attempts
  kept : ∀ reg, Current s.2 reg → Kept s.1 reg
  names : ∀ reg ∈ s.2, reg.attempt.tokens = dotTokens reg.name

variable {s : ServiceState} {e : IpcEvent}
variable {name : Bytes}

theorem step_of_refused {handle : ℕ} (hcall : e.call = .nsRegister name handle)
    (hres : (e.start s.1).ownTable.resolve handle = none) : step s e = (e.start s.1, s.2) := by
  have hexec : ((e.start s.1).sysIpcNsRegister name handle).2 = e.start s.1 := by
    unfold sysIpcNsRegister
    rw [hres]
    rfl
  unfold step IpcEvent.step
  rw [hcall, ofCall, hres]
  exact Prod.ext hexec (append_nil _)

theorem Logged.register (h : Logged s) {handle : ℕ} {c : IpcCapability}
    (hfits : FitsName name) (hcall : e.call = .nsRegister name handle)
    (hres : (e.start s.1).ownTable.resolve handle = some c) : Logged (step s e) := by
  have hlog : (step s e).2 = s.2 ++ [⟨name, (e.start s.1).nsAttempt name handle
      ((e.start s.1).tasks (e.start s.1).current).id, c⟩] := by
    change s.2 ++ (ofCall (e.start s.1) e.call).toList = _
    rw [hcall, ofCall, hres]
    rfl
  have hexec : (step s e).1 = ((e.start s.1).ipcNsInsert name handle
      ((e.start s.1).tasks (e.start s.1).current).id).2 := by
    change e.call.exec (e.start s.1) = _
    rw [hcall]
    change ((e.start s.1).sysIpcNsRegister name handle).2 = _
    unfold sysIpcNsRegister
    rw [hres]
    rfl
  have hcap : (step s e).1.cap = s.1.cap := by
    rw [hexec]
    exact cap_congr (SameThreads.ipcNsInsert (e.start s.1) name handle _).1.ipcExt
  obtain ⟨-, hslot, hvalid⟩ := of_resolve hres
  refine ⟨?_, fun reg hreg => ?_, fun reg hreg => ?_⟩
  · rw [attempts, hlog, hexec, map_append]
    exact NsRep.insert (k := e.start s.1) (NsRep.congr (k := s.1) rfl h.rep) name handle _
  · rw [hlog] at hreg
    rcases current_concat hreg with hold | rfl
    · obtain ⟨hused, htype, hid, hrights⟩ := h.kept reg hold
      exact ⟨hused, hcap ▸ htype, hcap ▸ hid, hcap ▸ hrights⟩
    · have hsame : (step s e).1.cap ((e.start s.1).extIndex (e.start s.1).current) handle = c :=
        hcap ▸ hslot
      exact ⟨hvalid.1, congrArg _ hsame, congrArg _ hsame, by
        change ((step s e).1.cap ((e.start s.1).extIndex _) handle).rights &&& c.rights =
          ((step s e).1.cap ((e.start s.1).extIndex _) handle).rights
        rw [hsame, UInt32.and_self]⟩
  · rw [hlog] at hreg
    rcases mem_append.mp hreg with hreg | hreg
    · exact h.names reg hreg
    · rw [mem_singleton.mp hreg]
      exact nsTokens_eq_dotTokens hfits

theorem Logged.other (h : Logged s) (hcareful : Careful s e)
    (hcall : ∀ name handle, e.call ≠ .nsRegister name handle) : Logged (step s e) := by
  have hlog : (step s e).2 = s.2 := by
    have hnone : ofCall (e.start s.1) e.call = none := by
      cases hc : e.call with
      | nsRegister name handle => exact absurd hc (hcall name handle)
      | _ => rfl
    change s.2 ++ (ofCall (e.start s.1) e.call).toList = s.2
    rw [hnone]
    exact append_nil _
  have hnames : (step s e).1.names = s.1.names := (IpcCall.effect (e.start s.1) hcall).names
  refine ⟨?_, fun reg hreg => ?_, ?_⟩
  · rw [attempts, hlog]
    exact h.rep.congr hnames
  · rw [hlog] at hreg
    obtain ⟨hused, htype, hid, hrights⟩ := h.kept reg hreg
    exact Kept.exec (k := e.start s.1) ⟨hused, htype, hid, hrights⟩ (hcareful.frees reg hreg)
  · rw [hlog]
    exact h.names

theorem Logged.step (h : Logged s) (hcareful : Careful s e) : Logged (s.step e) := by
  by_cases hcall : ∃ name handle, e.call = .nsRegister name handle
  · obtain ⟨name, handle, hcall⟩ := hcall
    cases hres : (e.start s.1).ownTable.resolve handle with
    | some c => exact h.register (hcareful.register name handle hcall) hcall hres
    | none =>
      rw [step_of_refused hcall hres]
      refine ⟨NsRep.congr (k := s.1) rfl h.rep, fun reg hreg => ?_, h.names⟩
      obtain ⟨hused, htype, hid, hrights⟩ := h.kept reg hreg
      exact ⟨hused, htype, hid, hrights⟩
  · push Not at hcall
    exact h.other hcareful hcall

theorem Logged.exists_current (h : Logged s) (hcareful : Careful s e) {m : ℕ}
    (hcall : e.call = .nsLookup name) (hfind : s.1.ipcNsFind name = some m) :
    ∃ reg, Current s.2 reg ∧ SameName reg.name name ∧
      s.1.nsData m = (reg.attempt.handle, reg.attempt.owner) := by
  obtain ⟨hfits, hclear⟩ := hcareful.lookup name hcall
  rw [← nsTokens_eq_dotTokens hfits] at hclear
  have hun : NsAttempt.Unambiguous s.attempts (nsTokens name) := by
    intro x hx hpre
    obtain ⟨reg, hreg, rfl⟩ := mem_map.mp hx
    rw [h.names reg hreg] at hpre ⊢
    rw [(hclear reg hreg hpre).dotTokens, nsTokens_eq_dotTokens hfits]
  obtain ⟨x, hx, hdone, hsame⟩ := h.rep.exists_done hun hfind
  obtain ⟨pre, y, post, hlist, hydone, hytokens, hlast, hstored⟩ :=
    NsAttempt.exists_stored hun hx hdone hsame
  obtain ⟨pre', rest, hlog, -, hrest⟩ := map_eq_append_iff.mp hlist
  obtain ⟨reg, post', rfl, rfl, rfl⟩ := map_eq_cons_iff.mp hrest
  have hmem : reg ∈ s.2 := by
    rw [hlog]
    simp
  refine ⟨reg, ⟨hydone, pre', post', hlog, fun r hr hrdone => ?_⟩, ?_, ?_⟩
  · rw [hytokens]
    exact hlast r.attempt (mem_map_of_mem hr) hrdone
  · apply hclear reg hmem
    rw [← h.names reg hmem, hytokens]
  · rw [h.rep.lookups.data name m hfind, hstored]

theorem Logged.grants (h : Logged s) (hcareful : Careful s e) : Grants s e := by
  intro name slot hcall hret
  obtain ⟨i, owner, hfind, howner, hcap⟩ := of_sysIpcNsLookup hret
  have hnames : (e.start s.1).names = s.1.names := rfl
  rw [ipcNsFind_of_names hnames] at hfind
  obtain ⟨reg, hcur, hname, hdata⟩ := h.exists_current hcareful hcall hfind
  obtain ⟨hhandle, hid⟩ := Prod.mk.inj hdata
  have hslot : (s.step e).1.cap (s.1.extIndex e.task) slot =
      ((e.start s.1).sysIpcNsLookup name).2.cap ((e.start s.1).extIndex (e.start s.1).current)
        slot := by
    change (e.call.exec (e.start s.1)).cap _ slot = _
    rw [hcall]
    rfl
  have howner' : (s.1.tasks owner).id = (s.1.nsEntries i).ownerTaskId :=
    (of_schedGetThreadById howner).2.2
  have hsrc : (e.start s.1).cap ((e.start s.1).extIndex owner)
      ((e.start s.1).nsEntries i).capHandle =
      s.1.cap (reg.attempt.owner % schedMaxThreads) reg.attempt.handle := by
    change s.1.cap ((s.1.tasks owner).id % schedMaxThreads) (s.1.nsEntries i).capHandle = _
    rw [howner', hhandle, hid]
  obtain ⟨-, htype, hobj, hrights⟩ := h.kept reg hcur
  refine ⟨reg, hcur, hname, ?_, ?_, ?_⟩ <;> rw [hslot, hcap, hsrc]
  · exact htype
  · exact hobj
  · rw [← UInt32.and_assoc, UInt32.and_swap _ _ reg.cap.rights, hrights, UInt32.and_assoc,
      UInt32.and_self]

theorem logged_init (k : Kernel) : Logged (k.ipcSubsystemInit, []) := by
  refine ⟨nsRep_init k, fun reg hreg => ?_, nofun⟩
  obtain ⟨-, pre, post, hlog, -⟩ := hreg
  simp at hlog

/-- Lookups grant only what was registered in runs that take care. -/
theorem lookup_grants_registered (k : Kernel) (pre : List IpcEvent) (e : IpcEvent)
    (hrun : Guarded step Careful (k.ipcSubsystemInit, []) (pre ++ [e])) :
    Grants (run step (k.ipcSubsystemInit, []) pre) e := by
  obtain ⟨hpre, hcareful, -⟩ := guarded_append.mp hrun
  apply Logged.grants _ hcareful
  exact invariant_run (fun _ _ => Logged.step) (logged_init k) hpre

/-- Task 0 makes an endpoint and registers it under the name. -/
def service (name : Bytes) : List IpcEvent := [⟨0, .endpointCreate⟩, ⟨0, .nsRegister name 0⟩]

theorem exists_of_current {reg : Registration} (h : Current s.2 reg) :
    reg.name ∈ s.2.map Registration.name := by
  obtain ⟨-, pre, post, hlog, -⟩ := h
  rw [hlog]
  simp

def lookupA : IpcEvent := ⟨0, .nsLookup (bytes "a")⟩

theorem service_a_is_granted :
    ((lookupA.start (run step (boot, []) (service (bytes "a"))).1).sysIpcNsLookup
        (bytes "a")).1.handle? = some 1 ∧
      Grants (run step (boot, []) (service (bytes "a"))) lookupA := by
  refine ⟨by decide +kernel, ?_⟩
  refine lookup_grants_registered _ (service (bytes "a")) _ ⟨?_, ?_, ?_, trivial⟩
  · exact ⟨nofun, nofun, fun _ _ _ => not_mem_nil⟩
  · refine ⟨fun name handle hcall => ?_, nofun, fun _ _ _ => not_mem_nil⟩
    obtain ⟨rfl, rfl⟩ := IpcCall.nsRegister.inj hcall
    change ((bytes "a").takeWhile (· ≠ 0)).length < 64
    decide +kernel
  · refine ⟨nofun, fun name hcall => ?_, fun _ _ _ => not_mem_nil⟩
    obtain rfl := IpcCall.nsLookup.inj hcall
    have hfits : ((bytes "a").takeWhile (· ≠ 0)).length < 64 := by decide +kernel
    refine ⟨hfits, fun reg hreg _ => ?_⟩
    have hnames : (run step (boot, []) (service (bytes "a"))).2.map Registration.name =
        [bytes "a"] := by
      decide +kernel
    have hname := hnames ▸ mem_map_of_mem (f := Registration.name) hreg
    rw [mem_singleton.mp hname]
    rfl

/-- A lookup of `a`, which was never registered, returns a handle after `a.b` was registered. -/
theorem lookup_of_unregistered_name :
    ((lookupA.start (run step (boot, []) (service (bytes "a.b"))).1).sysIpcNsLookup
        (bytes "a")).1.handle? = some 1 ∧
      ¬ Grants (run step (boot, []) (service (bytes "a.b"))) lookupA := by
  have hret : ((lookupA.start (run step (boot, []) (service (bytes "a.b"))).1).sysIpcNsLookup
      (bytes "a")).1.handle? = some 1 := by
    decide +kernel
  have hnames : (run step (boot, []) (service (bytes "a.b"))).2.map Registration.name =
      [bytes "a.b"] := by
    decide +kernel
  refine ⟨hret, fun hgrants => ?_⟩
  generalize run step (boot, []) (service (bytes "a.b")) = s at hret hnames hgrants
  obtain ⟨reg, hcur, hname, -⟩ := hgrants (bytes "a") 1 rfl (IpcOutcome.of_handle? hret)
  have hmem := exists_of_current hcur
  rw [hnames] at hmem
  rw [mem_singleton.mp hmem] at hname
  revert hname
  change ¬ ((bytes "a.b").takeWhile (· ≠ 0) = (bytes "a").takeWhile (· ≠ 0))
  decide +kernel

end ServiceState
end SageOS
