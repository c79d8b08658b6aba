import SageOS.NameSpaceMap
import SageOS.RightsFlow

/-!
# The entry of a service

A run of IPC calls is followed with a log of the registrations that were tried and the capabilities
that were registered. The latest registration of a name still describes the slot it names as long
as no call frees that slot: a slot that is in use can only be narrowed. A name is unambiguous when
no other name that was tried leads to its entry or goes through it. The entry of an unambiguous name
that is found carries the latest successful registration of that name.
-/
namespace SageOS
open Kernel GuardedRun PathGraph List

/-- The tokens of a name of any length. -/
def dotTokens (name : Bytes) : List Bytes :=
  ((name.takeWhile (· ≠ 0)).splitOnP (· == 46)).filter (· ≠ [])

def FitsName (name : Bytes) : Prop := (name.takeWhile (· ≠ 0)).length < 64

/-- The two names are one C string. -/
def SameName (a b : Bytes) : Prop := a.takeWhile (· ≠ 0) = b.takeWhile (· ≠ 0)

theorem SameName.dotTokens {a b : Bytes} (h : SameName a b) : dotTokens a = dotTokens b := by
  unfold SageOS.dotTokens
  rw [h]

theorem nsTokens_eq_dotTokens {name : Bytes} (h : FitsName name) :
    nsTokens name = dotTokens name := by
  have hchars : (strncpy 64 name).chars = name.takeWhile (· ≠ 0) :=
    take_of_length_le (Nat.le_of_lt_succ h)
  unfold nsTokens dotTokens
  rw [hchars]

structure Registration where
  name : Bytes
  attempt : NsAttempt
  cap : IpcCapability

namespace Registration

/-- A registration of the current task, with the capability it holds in the slot. -/
def ofCall (k : Kernel) : IpcCall → Option Registration
  | .nsRegister name handle => (k.ownTable.resolve handle).map fun c =>
    ⟨name, k.nsAttempt name handle (k.tasks k.current).id, c⟩
  | _ => none

/-- The registration succeeded, and none of the same name did since. -/
def Current (log : List Registration) (reg : Registration) : Prop :=
  reg.attempt.done ∧ ∃ pre post, log = pre ++ reg :: post ∧
    ∀ r ∈ post, r.attempt.done → r.attempt.tokens ≠ reg.attempt.tokens

/-- The slot still names the registered object, with no right that was not registered. -/
structure Kept (k : Kernel) (reg : Registration) : Prop where
  used : reg.cap.objectType ≠ .none
  type : (k.cap (reg.attempt.owner % schedMaxThreads) reg.attempt.handle).objectType =
    reg.cap.objectType
  id : (k.cap (reg.attempt.owner % schedMaxThreads) reg.attempt.handle).objectId = reg.cap.objectId
  rights : (k.cap (reg.attempt.owner % schedMaxThreads) reg.attempt.handle).rights &&&
    reg.cap.rights = (k.cap (reg.attempt.owner % schedMaxThreads) reg.attempt.handle).rights

variable {k k' : Kernel} {log : List Registration} {reg new : Registration}

theorem current_concat (h : Current (log ++ [new]) reg) : Current log reg ∨ reg = new := by
  obtain ⟨hdone, pre, post, heq, hpost⟩ := h
  induction post using List.reverseRecOn with
  | nil =>
    obtain ⟨-, hlast⟩ := append_inj' heq rfl
    exact .inr (singleton_inj.mp hlast).symm
  | append_singleton post r _ =>
    rw [← cons_append, ← append_assoc] at heq
    obtain ⟨hlog, -⟩ := append_inj' heq rfl
    exact .inl ⟨hdone, pre, post, hlog, fun r hr => hpost r (mem_append_left _ hr)⟩

theorem Kept.exec (h : Kept k reg) {call : IpcCall}
    (hfree : k.extIndex k.current = reg.attempt.owner % schedMaxThreads →
      reg.attempt.handle ∉ call.frees) : Kept (call.exec k) reg := by
  have hflow := call.capFlow k (reg.attempt.owner % schedMaxThreads) reg.attempt.handle
  obtain ⟨hused, htype, hid, hrights⟩ := h
  have hbusy : (k.cap (reg.attempt.owner % schedMaxThreads)
      reg.attempt.handle).objectType ≠ .none := htype ▸ hused
  generalize hc : (call.exec k).cap (reg.attempt.owner % schedMaxThreads) reg.attempt.handle = c
    at hflow
  cases hflow with
  | kept => exact ⟨hused, hc ▸ htype, hc ▸ hid, hc ▸ hrights⟩
  | freed hx hh => exact absurd hh (hfree hx.symm)
  | narrowed hx r hcall =>
    refine ⟨hused, ?_, ?_, ?_⟩ <;> rw [hc]
    · exact htype
    · exact hid
    · rw [UInt32.and_swap, hrights]
  | dup hx hnone => exact absurd hnone hbusy
  | lookup hx hnone => exact absurd hnone hbusy
  | created hx hnone => exact absurd hnone hbusy

end Registration

namespace Kernel
variable {k k' : Kernel} {l : List NsAttempt} {a : Bytes}

theorem sameLinks_of_names (h : k'.names = k.names) : SameLinks k k' := by
  obtain ⟨hentries, hroot, hcount⟩ : k'.nsEntries = k.nsEntries ∧ k'.nsRoot = k.nsRoot ∧
      k'.nsCount = k.nsCount := by
    simpa [names] using h
  exact ⟨fun i => by rw [hentries], fun i => by rw [hentries], fun i => by rw [hentries], hcount,
    hroot⟩

theorem nsData_of_names (h : k'.names = k.names) : k'.nsData = k.nsData := by
  have hentries : k'.nsEntries = k.nsEntries := congrArg Prod.fst h
  unfold nsData
  rw [hentries]

theorem NsTree.congr (h : k'.names = k.names) (htree : NsTree k a) : NsTree k' a where
  toNsShape := (sameLinks_of_names h).nsShape htree.toNsShape
  pos := (sameLinks_of_names h).count ▸ htree.pos
  root := (sameLinks_of_names h).root.trans htree.root
  tree := (sameLinks_of_names h).nsEdge ▸ htree.tree
  blank := by
    rw [(sameLinks_of_names h).count, nsData_of_names h]
    exact htree.blank

theorem NsRep.congr (h : k'.names = k.names) (hrep : NsRep k l) : NsRep k' l := by
  have hlinks := sameLinks_of_names h
  cases hfirst : NsAttempt.firstToken l with
  | none =>
    rw [nsRep_of_none hfirst] at hrep ⊢
    exact ⟨hlinks.nsShape hrep.shape, hlinks.count.trans hrep.count, hlinks.root.trans hrep.root,
      (nsData_of_names h).trans hrep.data, hrep.done⟩
  | some a =>
    rw [nsRep_of_first hfirst] at hrep ⊢
    refine ⟨hrep.tree.congr h, ?_, ?_, ?_⟩ <;> rw [hlinks.nsEdge]
    · exact hrep.ends
    · rw [nsData_of_names h]
      exact hrep.data
    · exact hrep.nodes

end Kernel

theorem exists_of_getLast?_filter {α : Type} {p : α → Bool} {l : List α} {x : α}
    (h : (l.filter p).getLast? = some x) :
    ∃ pre post, l = pre ++ x :: post ∧ p x = true ∧ ∀ y ∈ post, p y = false := by
  induction l using List.reverseRecOn with
  | nil => cases h
  | append_singleton l y ih =>
    rw [filter_append, filter_singleton] at h
    cases hy : p y with
    | true =>
      rw [hy, cond_true, getLast?_append] at h
      obtain rfl := Option.some.inj h
      exact ⟨l, [], rfl, hy, nofun⟩
    | false =>
      rw [hy, cond_false, append_nil] at h
      obtain ⟨pre, post, rfl, hx, hpost⟩ := ih h
      refine ⟨pre, post ++ [y], by simp, hx, fun z hz => ?_⟩
      rcases mem_append.mp hz with hz | hz
      · exact hpost z hz
      · rw [mem_singleton.mp hz, hy]

def IpcOutcome.handle? : IpcOutcome → Option ℕ
  | .handle h => some h
  | _ => none

theorem IpcOutcome.of_handle? {o : IpcOutcome} {h : ℕ} (ho : o.handle? = some h) :
    o = .handle h := by
  cases o with
  | handle h' => rw [Option.some.inj ho]
  | _ => cases ho

namespace NsAttempt
variable {l : List NsAttempt} {ts : List Bytes}

/-- The only names that reach the entry of `ts` or go through it are written `ts`. -/
def Unambiguous (l : List NsAttempt) (ts : List Bytes) : Prop :=
  ∀ x ∈ l, canonical l ts <+: canonical l x.tokens → x.tokens = ts

theorem mem_effective (h : Unambiguous l ts) {x : NsAttempt} (hx : x ∈ l)
    (hsame : canonical l x.tokens = canonical l ts) : x ∈ effective l := by
  have htokens := h x hx (hsame ▸ prefix_refl _)
  unfold effective
  cases hfirst : firstToken l with
  | none => exact hx
  | some a =>
    by_contra hlost
    have hnil : x.tokens = [] := by
      rw [← takeWhile_append_dropWhile (p := fun x => decide (x.tokens = [])) (l := l)] at hx
      rcases mem_append.mp hx with hx | hx
      · simpa using mem_takeWhile_imp hx
      · exact absurd hx hlost
    have hall : ∀ y ∈ l, y.tokens = [] := by
      intro y hy
      rw [h y hy ?_, ← htokens, hnil]
      rw [← hsame, hnil]
      exact nil_prefix
    rw [firstToken_eq_none_iff.mpr hall] at hfirst
    cases hfirst

theorem exists_stored (h : Unambiguous l ts) {x : NsAttempt} (hx : x ∈ l) (hdone : x.done)
    (hsame : canonical l x.tokens = canonical l ts) :
    ∃ pre y post, l = pre ++ y :: post ∧ y.done ∧ y.tokens = ts ∧
      (∀ z ∈ post, z.done → z.tokens ≠ ts) ∧ stored l ts = (y.handle, y.owner) := by
  have hmem : x ∈ (effective l).filter fun x => x.done ∧ canonical l x.tokens = canonical l ts :=
    mem_filter.mpr ⟨mem_effective h hx hsame, decide_eq_true ⟨hdone, hsame⟩⟩
  obtain ⟨y, hy⟩ : ∃ y, ((effective l).filter fun x =>
      decide (x.done ∧ canonical l x.tokens = canonical l ts)).getLast? = some y :=
    ⟨_, getLast?_eq_some_getLast (ne_nil_of_mem hmem)⟩
  obtain ⟨pre, post, heff, hyp, hpost⟩ := exists_of_getLast?_filter hy
  have hsuffix : effective l <:+ l := by
    unfold effective
    split_ifs
    · exact suffix_refl l
    · exact dropWhile_suffix _
  obtain ⟨w, hw⟩ := hsuffix
  have hl : l = (w ++ pre) ++ y :: post := by
    rw [append_assoc, ← heff, hw]
  obtain ⟨hydone, hysame⟩ := of_decide_eq_true hyp
  have hyl : y ∈ l := by
    rw [hl]
    simp
  refine ⟨w ++ pre, y, post, hl, hydone, h y hyl (hysame ▸ prefix_refl _), ?_, ?_⟩
  · intro z hz hzdone heq
    have hnot := of_decide_eq_false (hpost z hz)
    exact hnot ⟨hzdone, by rw [heq]⟩
  · unfold stored
    rw [hy]
    rfl

end NsAttempt

namespace Kernel
variable {k : Kernel} {l : List NsAttempt} {name : Bytes} {m : ℕ}

theorem NsRep.exists_done (h : NsRep k l) (hun : NsAttempt.Unambiguous l (nsTokens name))
    (hfind : k.ipcNsFind name = some m) :
    ∃ x ∈ l, x.done ∧ NsAttempt.canonical l x.tokens = NsAttempt.canonical l (nsTokens name) := by
  cases hfirst : NsAttempt.firstToken l with
  | none =>
    rw [nsRep_of_none hfirst] at h
    obtain ⟨hl, hname, -⟩ := h.ipcNsFind_eq_some_iff.mp hfind
    obtain ⟨x, l', rfl⟩ := exists_cons_of_ne_nil hl
    refine ⟨x, mem_cons_self, h.done x mem_cons_self, ?_⟩
    rw [hname, NsAttempt.firstToken_eq_none_iff.mp hfirst x mem_cons_self]
  | some a =>
    rw [nsRep_of_first hfirst] at h
    rw [h.ipcNsFind] at hfind
    rcases h.nodes _ m hfind with hdone | ⟨x, hx, hpre, hne⟩
    · exact hdone
    · exact absurd (by rw [hun x hx hpre]) hne

theorem ipcNsFind_of_names {k' : Kernel} (h : k'.names = k.names) :
    k'.ipcNsFind name = k.ipcNsFind name := by
  rw [ipcNsFind_eq, ipcNsFind_eq, (sameLinks_of_names h).nsEdge, (sameLinks_of_names h).root]

theorem of_sysIpcNsLookup {slot : ℕ} (h : (k.sysIpcNsLookup name).1 = .handle slot) :
    ∃ i owner, k.ipcNsFind name = some i ∧
      k.schedGetThreadById (k.nsEntries i).ownerTaskId = some owner ∧
      (k.sysIpcNsLookup name).2.cap (k.extIndex k.current) slot =
        { k.cap (k.extIndex owner) (k.nsEntries i).capHandle with
          rights := (k.cap (k.extIndex owner) (k.nsEntries i).capHandle).rights &&&
            ~~~(ipcCapRightRevoke ||| ipcCapRightDup)
          refCount := (k.cap (k.extIndex owner) (k.nsEntries i).capHandle).refCount + 1
          ownerTask := (k.tasks k.current).id } := by
  unfold sysIpcNsLookup at h ⊢
  cases hfind : k.ipcNsFind name with
  | none => simp [hfind] at h
  | some i =>
    rw [hfind] at h
    cases hslot : k.ownTable.allocSlot with
    | none => simp [hslot] at h
    | some j =>
      cases howner : k.schedGetThreadById (k.nsEntries i).ownerTaskId with
      | none => simp [hslot, howner] at h
      | some owner =>
        simp only [hslot, howner, IpcOutcome.handle.injEq] at h
        subst h
        refine ⟨i, owner, rfl, howner, ?_⟩
        simp only [howner]
        rw [cap_putCap, if_pos ⟨rfl, rfl⟩]
        rfl

end Kernel
end SageOS
