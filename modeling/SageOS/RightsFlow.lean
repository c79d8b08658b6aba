import SageOS.GuardedRun
import SageOS.IpcCapFlow
import SageOS.ThreadLifecycle

/-!
# Rights never amplify

In a run of IPC calls a right on an object comes only from someone who holds it or from the creation
of the object, as long as no reference count wraps around. A duplicate has one count more than its
original; at `2 ^ 32 - 1` the duplicate has count 0 and is not valid, and a lookup of its slot makes
it valid again when nobody else holds the object any more.
-/
namespace SageOS
open Kernel GuardedRun IpcCapability

/-- A call of a task, which is running when it makes the call. -/
structure IpcEvent where
  task : ℕ
  call : IpcCall

namespace IpcEvent

def start (k : Kernel) (e : IpcEvent) : Kernel := { k with current := e.task }

def step (k : Kernel) (e : IpcEvent) : Kernel := e.call.exec (e.start k)

def Acts (k : Kernel) (e : IpcEvent) : Prop := e.task < maxTasks ∧ k.live e.task

instance decidableActs (k : Kernel) (e : IpcEvent) : Decidable (Acts k e) :=
  inferInstanceAs (Decidable (_ ∧ _))

end IpcEvent

namespace Kernel

/-- Some task has a valid capability on the object that carries the right. -/
def Holds (k : Kernel) (type : IpcObjType) (id : ℕ) (right : UInt32) : Prop :=
  ∃ i < maxTasks, k.live i ∧ ∃ h < ipcCapMaxPerTask, (k.cap (k.extIndex i) h).isValid ∧
    (k.cap (k.extIndex i) h).objectType = type ∧ (k.cap (k.extIndex i) h).objectId = id ∧
      (k.cap (k.extIndex i) h).hasRight right

end Kernel

namespace IpcEvent

/-- The right is held before the step, or the step creates the object with it. -/
def NoGain (k : Kernel) (e : IpcEvent) : Prop :=
  ∀ type id right, (step k e).Holds type id right → k.Holds type id right ∨
    ∃ c, e.call.created (e.start k) = some c ∧ c.objectType = type ∧ c.objectId = id ∧
      c.hasRight right

end IpcEvent

/-- The call copies no capability whose count is the largest there is. -/
def IpcCall.NoWrap (k : Kernel) : IpcCall → Prop
  | .capDup j => (k.cap (k.extIndex k.current) j).refCount ≠ 0xFFFFFFFF
  | .nsLookup name => ∀ i owner, k.ipcNsFind name = some i →
      k.schedGetThreadById (k.nsEntries i).ownerTaskId = some owner →
        (k.cap (k.extIndex owner) (k.nsEntries i).capHandle).refCount ≠ 0xFFFFFFFF
  | _ => True

instance decidableNoWrap (k : Kernel) (call : IpcCall) : Decidable (call.NoWrap k) := by
  cases call with
  | nsLookup name =>
    exact decidable_of_iff (∀ i ∈ k.ipcNsFind name, ∀ owner ∈
      k.schedGetThreadById (k.nsEntries i).ownerTaskId,
        (k.cap (k.extIndex owner) (k.nsEntries i).capHandle).refCount ≠ 0xFFFFFFFF)
      ⟨fun h i owner hi ho => h i hi owner ho, fun h i hi owner ho => h i owner hi ho⟩
  | _ =>
    unfold IpcCall.NoWrap
    infer_instance

theorem UInt32.pos_succ {n : UInt32} (h : n ≠ 0xFFFFFFFF) : 0 < n + 1 := by
  have hn : n.toNat ≠ 0xFFFFFFFF := fun he => h (UInt32.toNat_inj.mp he)
  have hlt := n.toNat_lt
  change 0 < (n.toNat + 1) % 2 ^ 32
  omega

theorem UInt32.and_swap (a b c : UInt32) : a &&& b &&& c = a &&& c &&& b := by
  rw [UInt32.and_assoc, UInt32.and_comm b c, ← UInt32.and_assoc]

theorem IpcCapability.hasRight_of_and {a b r : UInt32} (h : a &&& b &&& r ≠ 0) : a &&& r ≠ 0 := by
  intro hz
  apply h
  rw [UInt32.and_swap, hz, UInt32.zero_and]

namespace Kernel
variable {k : Kernel}

def HandlesOk (k : Kernel) : Prop := ∀ i, (k.nsEntries i).capHandle < ipcCapMaxPerTask

theorem HandlesOk.setNsEntry (hk : k.HandlesOk) (j : ℕ) {e : IpcNsEntry}
    (he : e.capHandle < ipcCapMaxPerTask) : (k.setNsEntry j e).HandlesOk := by
  intro i
  change (Function.update k.nsEntries j e i).capHandle < _
  rw [Function.update_apply]
  split_ifs
  · exact he
  · exact hk i

theorem HandlesOk.nsExtend (hk : k.HandlesOk) {cur n : ℕ} {t : Bytes} {k' : Kernel}
    (h : k.nsExtend cur t = some (n, k')) : k'.HandlesOk := by
  unfold Kernel.nsExtend at h
  cases hchild : k.nsChild cur t with
  | some i =>
    rw [hchild] at h
    cases h
    exact hk
  | none =>
    rw [hchild] at h
    split_ifs at h
    cases h
    have hcount : ({ k with nsCount := k.nsCount + 1 } : Kernel).HandlesOk := hk
    have hnew := hcount.setNsEntry k.nsCount (e := { name := strncpy 64 t })
      (show 0 < ipcCapMaxPerTask by decide)
    apply HandlesOk.setNsEntry
    · apply hnew.setNsEntry
      exact hnew k.nsCount
    · apply hnew.setNsEntry
      exact hnew k.nsCount

theorem HandlesOk.nsInsertTokens {handle owner : ℕ} (hlt : handle < ipcCapMaxPerTask)
    (ts : List Bytes) (cur : ℕ) (hk : k.HandlesOk) :
    (nsInsertTokens handle owner k cur ts).2.HandlesOk := by
  induction ts generalizing k cur with
  | nil => exact hk.setNsEntry cur hlt
  | cons t ts ih =>
    unfold Kernel.nsInsertTokens
    cases hext : k.nsExtend cur t with
    | none => exact hk
    | some r => exact ih r.1 (hk.nsExtend hext)

theorem HandlesOk.ipcNsInsert (hk : k.HandlesOk) (name : Bytes) {handle owner : ℕ}
    (hlt : handle < ipcCapMaxPerTask) : (k.ipcNsInsert name handle owner).2.HandlesOk := by
  unfold Kernel.ipcNsInsert
  cases k.nsRoot with
  | some root => exact .nsInsertTokens hlt _ root hk
  | none =>
    apply HandlesOk.nsInsertTokens hlt
    exact HandlesOk.setNsEntry (k := { k with nsRoot := some 0 }) hk 0 (by decide)

theorem HandlesOk.exec (hk : k.HandlesOk) (call : IpcCall) : (call.exec k).HandlesOk := by
  by_cases hcall : ∃ name handle, call = .nsRegister name handle
  · obtain ⟨name, handle, rfl⟩ := hcall
    change (k.sysIpcNsRegister name handle).2.HandlesOk
    unfold sysIpcNsRegister
    cases hres : k.ownTable.resolve handle with
    | none => exact hk
    | some c => exact hk.ipcNsInsert name (of_resolve hres).1
  · push Not at hcall
    have hentries : (call.exec k).nsEntries = k.nsEntries :=
      congrArg Prod.fst (IpcCall.effect k hcall).names
    unfold HandlesOk
    rw [hentries]
    exact hk

/-- Counts are positive, and registered handles are handles. -/
structure Sound (k : Kernel) : Prop where
  counts : ∀ x h, (k.cap x h).objectType ≠ .none → 0 < (k.cap x h).refCount
  handles : k.HandlesOk

theorem refCount_created {call : IpcCall} {c : IpcCapability} (h : call.created k = some c) :
    0 < c.refCount := by
  cases call with
  | endpointCreate | portAccept | portAcceptResume | portCreate =>
    obtain ⟨r, -, rfl⟩ := Option.map_eq_some_iff.mp h
    change (0 : UInt32) < 1
    decide
  | _ => cases h

theorem Sound.exec (hk : k.Sound) {call : IpcCall} (hwrap : call.NoWrap k) :
    (call.exec k).Sound := by
  refine ⟨fun x h htype => ?_, hk.handles.exec call⟩
  have hflow := call.capFlow k x h
  generalize (call.exec k).cap x h = c at hflow htype
  cases hflow with
  | kept => exact hk.counts x h htype
  | freed hx hh => exact absurd rfl htype
  | narrowed hx r hcall => exact hk.counts x h htype
  | dup hx hfree j hcall hj hvalid =>
    subst hcall
    apply UInt32.pos_succ
    rw [hx]
    exact hwrap
  | lookup hx hfree name i owner hcall hfind howner src hsrc =>
    subst hcall
    apply UInt32.pos_succ
    rw [hsrc]
    exact hwrap i owner hfind howner
  | created hx hfree c hcall => exact refCount_created hcall

theorem of_schedGetThreadById {id owner : ℕ} (h : k.schedGetThreadById id = some owner) :
    owner < maxTasks ∧ k.live owner ∧ (k.tasks owner).id = id := by
  obtain ⟨hid, hlive⟩ := of_decide_eq_true (List.find?_some
    (p := fun i => decide ((k.tasks i).id = id ∧ (k.tasks i).state ≠ .unused)) h)
  exact ⟨List.mem_range.mp (List.mem_of_find?_eq_some h), hlive, hid⟩

end Kernel

namespace IpcEvent
variable {k : Kernel} {e : IpcEvent}

theorem noGain_of_sound (hacts : Acts k e) (hk : k.Sound) : NoGain k e := by
  rintro type id right ⟨i, hi, hlive, h, hh, hvalid, htype, hid, hright⟩
  have hown := e.call.exec_ownTableOnly (e.start k) hacts.2
  have hlive' : k.live i := (hown.unused i).not.mp hlive
  have hidx : (step k e).extIndex i = k.extIndex i := hown.extIndex i
  have hflow := e.call.capFlow (e.start k) (k.extIndex i) h
  change CapFlow (e.start k) e.call (k.extIndex i) h ((step k e).cap (k.extIndex i) h) at hflow
  rw [hidx] at hvalid htype hid hright
  generalize (step k e).cap (k.extIndex i) h = c at hflow hvalid htype hid hright
  cases hflow with
  | kept => exact .inl ⟨i, hi, hlive', h, hh, hvalid, htype, hid, hright⟩
  | freed hx hmem => exact absurd hvalid not_isValid_default
  | narrowed hx r hcall =>
    exact .inl ⟨i, hi, hlive', h, hh, hvalid, htype, hid, hasRight_of_and hright⟩
  | dup hx hfree j hcall hj hsrc =>
    exact .inl ⟨i, hi, hlive', j, hj, hsrc, htype, hid, hright⟩
  | lookup hx hfree name n owner hcall hfind howner src hsrc =>
    obtain ⟨hlt, hownerLive, -⟩ := of_schedGetThreadById howner
    subst hsrc
    have hcount := hk.counts _ _ hvalid.1
    exact .inl ⟨owner, hlt, hownerLive, _, hk.handles n, ⟨hvalid.1, hcount⟩, htype, hid,
      hasRight_of_and hright⟩
  | created hx hfree c hcall => exact .inr ⟨c, hcall, htype, hid, hright⟩

/-- Narrowing leaves no capability with a right it did not have. -/
def NarrowsOnly (k : Kernel) (e : IpcEvent) : Prop :=
  ∀ handle newRights, e.call = .capNarrow handle newRights → ∀ x h right,
    ((step k e).cap x h).hasRight right → (k.cap x h).hasRight right

theorem narrowsOnly (k : Kernel) (e : IpcEvent) : NarrowsOnly k e := by
  intro handle newRights hcall x h right hright
  have hflow := e.call.capFlow (e.start k) x h
  change CapFlow (e.start k) e.call x h ((step k e).cap x h) at hflow
  rw [hcall] at hflow
  generalize (step k e).cap x h = c at hflow hright
  cases hflow with
  | kept => exact hright
  | freed hx hmem => cases hmem
  | narrowed hx r hcall => exact hasRight_of_and hright
  | dup hx hfree j hcall => cases hcall
  | lookup hx hfree name n owner hcall => cases hcall
  | created hx hfree c hcall => cases hcall

/-- Every step of a run by tasks in which no count wraps around gains no right. -/
theorem rights_never_amplify (k : Kernel) (hk : k.Sound) (pre : List IpcEvent) (e : IpcEvent)
    (hrun : Guarded step (fun k e => Acts k e ∧ e.call.NoWrap (e.start k)) k (pre ++ [e])) :
    NoGain (run step k pre) e ∧ NarrowsOnly (run step k pre) e := by
  obtain ⟨hpre, ⟨hacts, -⟩, -⟩ := guarded_append.mp hrun
  have hsound : (run step k pre).Sound :=
    invariant_run (fun k e hk hok => Sound.exec (k := e.start k) ⟨hk.counts, hk.handles⟩ hok.2)
      hk hpre
  exact ⟨noGain_of_sound hacts hsound, narrowsOnly _ e⟩

theorem sound_boot : boot.Sound :=
  ⟨fun _ _ htype => absurd rfl htype, fun _ => show 0 < ipcCapMaxPerTask by decide⟩

/-- Two threads after boot. -/
def twoTasks : Kernel :=
  { boot with tasks := Function.update boot.tasks 1 { idleThread with id := 1 } }

/-- Thread 0 creates an endpoint, narrows a copy of its capability and registers it. -/
def sharing : List IpcEvent :=
  [⟨0, .endpointCreate⟩, ⟨0, .capDup 0⟩, ⟨0, .capNarrow 1 ipcCapRightRecv⟩,
    ⟨0, .nsRegister (bytes "a") 1⟩]

/-- Thread 1 looks the name up and then holds the narrowed right. -/
theorem shared_capability_not_amplified :
    ((run step twoTasks (sharing ++ [⟨1, .nsLookup (bytes "a")⟩])).cap 1 0).rights =
      ipcCapRightRecv ∧
    NoGain (run step twoTasks sharing) ⟨1, .nsLookup (bytes "a")⟩ ∧
      NarrowsOnly (run step twoTasks sharing) ⟨1, .nsLookup (bytes "a")⟩ :=
  ⟨by decide +kernel, rights_never_amplify twoTasks ⟨sound_boot.counts, sound_boot.handles⟩ sharing
    ⟨1, .nsLookup (bytes "a")⟩ (by decide +kernel)⟩

end IpcEvent
end SageOS
