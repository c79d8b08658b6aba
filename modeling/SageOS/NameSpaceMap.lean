import SageOS.GuardedRun
import SageOS.NameSpaceHistory

/-!
# The name space as a map

After any sequence of inserts a name leads to the entry of its token list up to leading copies of
the first token that was ever inserted. So the name space is the map from token lists to what was
last inserted for them exactly where no other token list of the sequence has the same canonical
form and carries other data.
-/
namespace SageOS
open LinkedChain PathGraph GuardedRun List Option
namespace Kernel
open NsAttempt
variable {k : Kernel} {l : List NsAttempt} {a name : Bytes} {handle owner : ℕ}

theorem nsShape_of_child (hcount : k.nsCount = 0) (hchild : ∀ i, (k.nsEntries i).child = none) :
    k.NsShape := by
  refine ⟨hcount ▸ Nat.zero_le _, fun i _ => hchild i, fun i => ⟨[], ?_, nofun⟩⟩
  rw [hchild]
  exact linked_nil.mpr rfl

theorem NsBlank.exists_root (h : NsBlank k l) (name : Bytes) (handle owner : ℕ) :
    ∃ k₀, k.ipcNsInsert name handle owner = nsInsertTokens handle owner k₀ 0 (nsTokens name) ∧
      k₀.NsShape ∧ k₀.nsCount = 0 ∧ k₀.nsRoot = some 0 ∧ k₀.nsData = k.nsData := by
  unfold ipcNsInsert
  rw [h.root]
  by_cases hl : l = []
  · rw [if_pos hl]
    refine ⟨_, rfl, nsShape_of_child h.count fun i => ?_, h.count, rfl, ?_⟩
    · by_cases hi : i = 0
      · simp [setNsEntry, hi]
      · simpa [setNsEntry, hi] using h.shape.unused i (h.count ▸ Nat.zero_le i)
    · funext i
      have hzero : stored l [] = (0, 0) := by rw [hl]; rfl
      have hi := congrFun h.data i
      rw [hzero, ite_self] at hi
      rw [hi]
      by_cases hi0 : i = 0
      · simp [nsData, setNsEntry, hi0]
      · simpa [nsData, setNsEntry, hi0] using hi
  · rw [if_neg hl]
    exact ⟨k, rfl, h.shape, h.count, h.root.trans (if_neg hl), rfl⟩

theorem NsBlank.insert_nil (hfirst : firstToken l = none) (h : NsBlank k l)
    (hname : nsTokens name = []) :
    NsBlank (k.ipcNsInsert name handle owner).2 (l ++ [k.nsAttempt name handle owner]) := by
  obtain ⟨k₀, hins, hshape, hcount, hroot, hdata⟩ := h.exists_root name handle owner
  rw [hname] at hins
  have hdone : (k.nsAttempt name handle owner).done = true := by
    change decide ((k.ipcNsInsert name handle owner).1 = 0) = true
    rw [hins]
    rfl
  have hnone : firstToken (l ++ [k.nsAttempt name handle owner]) = none := by
    rw [firstToken_concat, hfirst]
    change (nsTokens name).head? = none
    rw [hname]
    rfl
  have hstored : stored (l ++ [k.nsAttempt name handle owner]) [] = (handle, owner) := by
    have heff : effective (l ++ [k.nsAttempt name handle owner]) =
        effective l ++ [k.nsAttempt name handle owner] := by
      unfold effective
      rw [if_pos hnone, if_pos hfirst]
    have hclass : canonical l (k.nsAttempt name handle owner).tokens = canonical l [] :=
      congrArg (canonical l) hname
    rw [stored_of_effective_concat heff (hnone.trans hfirst.symm), if_pos ⟨hdone, hclass⟩]
    rfl
  have hk' : (k.ipcNsInsert name handle owner).2 = k₀.nsStore 0 (handle, owner) := by
    rw [hins]
    rfl
  rw [hk']
  refine ⟨(sameLinks_nsStore k₀ 0 _).nsShape hshape, hcount, ?_, ?_, ?_⟩
  · rw [if_neg (by simp)]
    exact hroot
  · rw [nsData_nsStore, hdata, h.data, hstored]
    funext i
    by_cases hi : i = 0 <;> simp [hi]
  · intro x hx
    rcases mem_append.mp hx with hx | hx
    · exact h.done x hx
    · rw [mem_singleton.mp hx]
      exact hdone

theorem NsBlank.insert_cons (hfirst : firstToken l = none) (h : NsBlank k l) {t : Bytes}
    {ts : List Bytes} (hname : nsTokens name = t :: ts) :
    NsBegun (k.ipcNsInsert name handle owner).2 (l ++ [k.nsAttempt name handle owner]) t := by
  obtain ⟨k₀, hins, hshape, hcount, hroot, hdata⟩ := h.exists_root name handle owner
  have htok : ∀ u ∈ nsTokens name, IsToken u := fun u hu => isToken_of_mem_nsTokens hu
  rw [hname] at hins htok
  have hsome : firstToken (l ++ [k.nsAttempt name handle owner]) = some t := by
    rw [firstToken_concat, hfirst]
    change (nsTokens name).head? = some t
    rw [hname]
    rfl
  have hblank : ∀ i, i ≠ 0 → k₀.nsData i = (0, 0) := by
    intro i hi
    rw [hdata, h.data]
    exact if_neg hi
  rcases nsExtend_cases hshape (Nat.zero_le _) (htok t mem_cons_self) with
    ⟨n, hedge, -⟩ | ⟨k₁, hrun, hadd⟩ | ⟨-, hfull, -⟩
  · have hlt := (hshape.lt_of_nsEdge hedge).1
    omega
  · obtain ⟨htree, hzero⟩ := hadd.first hcount hshape hroot hblank
    have hloop : follow k₁.nsEdge 0 [t] = some 0 := by
      rw [follow_cons, htree.tree.loop]
      rfl
    obtain ⟨hgrown, hend⟩ := nsInsertTokens_tree handle owner
      (fun u hu => htok u (mem_cons_of_mem t hu)) htree hloop
    have hstep : k.ipcNsInsert name handle owner = nsInsertTokens handle owner k₁ 0 ts := by
      rw [hins, nsInsertTokens, hrun, hcount]
    rw [← hstep, singleton_append, ← hname] at hgrown hend
    refine .of_grown (g := fun _ => (0, 0)) hsome htree hgrown ?_ ?_ ?_ (fun _ _ => rfl)
      (fun us => stored_concat_of_none hfirst hname us) ?_
    · rcases hend with ⟨hret, e, he, hnew⟩ | ⟨hret, hnone, hsame⟩
      · exact .inl ⟨decide_eq_true hret, e, he, hnew⟩
      · exact .inr ⟨decide_eq_false (by rw [hret]; decide), hnone, hsame⟩
    · intro y hy _
      rw [firstToken_eq_none_iff.mp hfirst y hy]
      exact ⟨0, rfl⟩
    · exact fun us m _ => congrFun hzero m
    · intro us m hus
      have hm : m = 0 := by
        have hlt := htree.lt_of_follow hus
        rw [hadd.count, hcount] at hlt
        omega
      subst hm
      have hroot' : follow k₁.nsEdge 0 [] = some 0 := rfl
      have hnil := (htree.tree.follow_eq_iff hus).mp hroot'
      rw [canonical_of_first hsome, hnil]
      exact .inr (.inr nil_prefix)
  · rw [hcount] at hfull
    exact absurd hfull (by decide)

theorem NsRep.insert (h : NsRep k l) (name : Bytes) (handle owner : ℕ) :
    NsRep (k.ipcNsInsert name handle owner).2 (l ++ [k.nsAttempt name handle owner]) := by
  cases hfirst : firstToken l with
  | some a =>
    rw [nsRep_of_first (a := a) (by rw [firstToken_concat, hfirst]; rfl)]
    exact ((nsRep_of_first hfirst).mp h).insert hfirst
  | none =>
    rw [nsRep_of_none hfirst] at h
    cases hname : nsTokens name with
    | nil =>
      rw [nsRep_of_none]
      · exact h.insert_nil hfirst hname
      · rw [firstToken_concat, hfirst]
        change (nsTokens name).head? = none
        rw [hname]
        rfl
    | cons t ts =>
      rw [nsRep_of_first (a := t)]
      · exact h.insert_cons hfirst hname
      · rw [firstToken_concat, hfirst]
        change (nsTokens name).head? = some t
        rw [hname]
        rfl

/-- The facts about lookups that the history determines. -/
structure NsLookups (k : Kernel) (l : List NsAttempt) : Prop where
  found : ∀ x ∈ l, x.done → ∀ name, nsTokens name = x.tokens → ∃ m, k.ipcNsFind name = some m
  data : ∀ name m, k.ipcNsFind name = some m → k.nsData m = stored l (nsTokens name)
  same : ∀ name name' m, k.ipcNsFind name = some m → (k.ipcNsFind name' = some m ↔
    canonical l (nsTokens name) = canonical l (nsTokens name'))

theorem NsBegun.ipcNsFind (h : NsBegun k l a) (name : Bytes) :
    k.ipcNsFind name = follow k.nsEdge 0 (nsTokens name) := by
  rw [ipcNsFind_eq, h.tree.root]
  rfl

theorem NsBegun.lookups (hfirst : firstToken l = some a) (h : NsBegun k l a) : NsLookups k l where
  found x hx hdone name hname := by
    obtain ⟨m, hm⟩ := h.ends x hx hdone
    rw [h.ipcNsFind, hname]
    exact ⟨m, hm⟩
  data name m hfind := by
    rw [h.ipcNsFind] at hfind
    exact h.data _ m hfind
  same name name' m hfind := by
    rw [h.ipcNsFind] at hfind ⊢
    rw [h.tree.tree.follow_eq_iff hfind, canonical_of_first hfirst, canonical_of_first hfirst]

theorem NsBlank.ipcNsFind_eq_some_iff (h : NsBlank k l) {m : ℕ} :
    k.ipcNsFind name = some m ↔ l ≠ [] ∧ nsTokens name = [] ∧ m = 0 := by
  have hedge : ∀ t, k.nsEdge 0 t = none := by
    intro t
    cases he : k.nsEdge 0 t with
    | none => rfl
    | some n =>
      have hlt := (h.shape.lt_of_nsEdge he).1
      rw [h.count] at hlt
      omega
  rw [ipcNsFind_eq, h.root]
  by_cases hl : l = []
  · simp [hl]
  · rw [if_neg hl, bind_some]
    cases nsTokens name with
    | nil => simp [hl, eq_comm]
    | cons t ts => simp [follow_cons, hedge]

theorem NsBlank.lookups (hfirst : firstToken l = none) (h : NsBlank k l) : NsLookups k l where
  found x hx hdone name hname := by
    refine ⟨0, h.ipcNsFind_eq_some_iff.mpr ⟨ne_nil_of_mem hx, ?_, rfl⟩⟩
    rw [hname]
    exact firstToken_eq_none_iff.mp hfirst x hx
  data name m hfind := by
    obtain ⟨-, hname, rfl⟩ := h.ipcNsFind_eq_some_iff.mp hfind
    rw [h.data, hname]
    rfl
  same name name' m hfind := by
    obtain ⟨hl, hname, rfl⟩ := h.ipcNsFind_eq_some_iff.mp hfind
    rw [h.ipcNsFind_eq_some_iff, canonical_of_none hfirst, canonical_of_none hfirst, hname]
    exact ⟨fun h => h.2.1.symm, fun h => ⟨hl, h.symm, rfl⟩⟩

theorem NsRep.lookups (h : NsRep k l) : NsLookups k l := by
  cases hfirst : firstToken l with
  | some a => exact ((nsRep_of_first hfirst).mp h).lookups hfirst
  | none => exact ((nsRep_of_none hfirst).mp h).lookups hfirst

theorem nsRep_init (k : Kernel) : NsRep k.ipcSubsystemInit [] := by
  refine ⟨nsShape_of_child rfl fun _ => rfl, rfl, rfl, ?_, nofun⟩
  funext i
  exact (ite_self _).symm

end Kernel

/-- A call of `ipc_ns_insert` with a name that fits its buffer. -/
structure NsInsert where
  name : CString 64
  handle : ℕ
  owner : ℕ

namespace NsInsert
open Kernel

def tokens (op : NsInsert) : List Bytes := nsTokens op.name.chars

def step (k : Kernel) (op : NsInsert) : Kernel :=
  (k.ipcNsInsert op.name.chars op.handle op.owner).2

def Succeeds (k : Kernel) (op : NsInsert) : Prop :=
  (k.ipcNsInsert op.name.chars op.handle op.owner).1 = 0

instance (k : Kernel) (op : NsInsert) : Decidable (Succeeds k op) :=
  inferInstanceAs (Decidable (_ = _))

def latest (ops : List NsInsert) (ts : List Bytes) : Option (ℕ × ℕ) :=
  (ops.filter fun op => op.tokens = ts).getLast?.map fun op => (op.handle, op.owner)

def attempts (ops : List NsInsert) : List NsAttempt :=
  ops.map fun op => ⟨op.tokens, op.handle, op.owner, true⟩

/-- The name leads to what was last inserted for its tokens; if nothing was, it leads nowhere or to
an entry in which no insert ended. -/
def Finds (k : Kernel) (ops : List NsInsert) (name : CString 64) : Prop :=
  match latest ops (nsTokens name.chars) with
  | some data => ∃ i, k.ipcNsFind name.chars = some i ∧ k.nsData i = data
  | none => ∀ i, k.ipcNsFind name.chars = some i →
      ∀ op ∈ ops, k.ipcNsFind op.name.chars ≠ some i

/-- What a name resolves to: the data of an entry in which some insert ended. -/
def resolved (k : Kernel) (ops : List NsInsert) (name : CString 64) : Option (ℕ × ℕ) :=
  ((k.ipcNsFind name.chars).filter fun i =>
    ∃ op ∈ ops, k.ipcNsFind op.name.chars = some i).map k.nsData

/-- The name space is a map at `name` all along the sequence. -/
structure IsMap (k : Kernel) (ops : List NsInsert) (name : CString 64) : Prop where
  finds : ∀ pre, pre <+: ops → Finds (run step k pre) pre name
  frame : ∀ pre op, pre ++ [op] <+: ops → op.tokens ≠ nsTokens name.chars →
    resolved (run step k (pre ++ [op])) (pre ++ [op]) name = resolved (run step k pre) pre name

/-- No other token list with the same canonical form comes in between. -/
def Unshared (ops : List NsInsert) (name : CString 64) : Prop :=
  match latest ops (nsTokens name.chars) with
  | some data => NsAttempt.stored (attempts ops) (nsTokens name.chars) = data
  | none => ∀ op ∈ ops, NsAttempt.canonical (attempts ops) op.tokens ≠
      NsAttempt.canonical (attempts ops) (nsTokens name.chars)

variable {k : Kernel} {ops : List NsInsert} {name : CString 64}

instance decidableUnshared : Decidable (Unshared ops name) := by
  unfold Unshared
  split <;> infer_instance

theorem finds_of_none (h : latest ops (nsTokens name.chars) = none) :
    Finds k ops name ↔ ∀ i, k.ipcNsFind name.chars = some i →
      ∀ op ∈ ops, k.ipcNsFind op.name.chars ≠ some i := by
  unfold Finds
  rw [h]

theorem nsRep_run (hk : NsRep k []) (hok : Guarded step Succeeds k ops) :
    NsRep (run step k ops) (attempts ops) := by
  induction ops using List.reverseRecOn with
  | nil => exact hk
  | append_singleton ops op ih =>
    obtain ⟨hops, hop, -⟩ := guarded_append.mp hok
    have hrep := (ih hops).insert op.name.chars op.handle op.owner
    have hlast : (run step k ops).nsAttempt op.name.chars op.handle op.owner =
        ⟨op.tokens, op.handle, op.owner, true⟩ := by
      have hret : ((run step k ops).ipcNsInsert op.name.chars op.handle op.owner).1 = 0 := hop
      unfold nsAttempt
      rw [decide_eq_true hret]
      rfl
    rw [hlast] at hrep
    rw [run_append, attempts, map_append]
    exact hrep

theorem exists_of_latest {data : ℕ × ℕ} {ts : List Bytes} (h : latest ops ts = some data) :
    ∃ op ∈ ops, op.tokens = ts := by
  obtain ⟨op, hop, -⟩ := map_eq_some_iff.mp h
  have hmem := mem_filter.mp (mem_of_getLast? hop)
  exact ⟨op, hmem.1, of_decide_eq_true hmem.2⟩

theorem latest_concat_of_ne {op : NsInsert} {ts : List Bytes} (h : op.tokens ≠ ts) :
    latest (ops ++ [op]) ts = latest ops ts := by
  unfold latest
  rw [filter_append, filter_singleton, decide_eq_false h]
  simp

theorem finds_iff_unshared (h : NsLookups k (attempts ops)) :
    Finds k ops name ↔ Unshared ops name := by
  have hfound : ∀ op ∈ ops, ∀ n : CString 64, nsTokens n.chars = op.tokens →
      ∃ m, k.ipcNsFind n.chars = some m := by
    intro op hop n hn
    exact h.found ⟨op.tokens, op.handle, op.owner, true⟩ (mem_map.mpr ⟨op, hop, rfl⟩) rfl _ hn
  unfold Finds Unshared
  cases hlatest : latest ops (nsTokens name.chars) with
  | some data =>
    obtain ⟨op, hop, htokens⟩ := exists_of_latest hlatest
    obtain ⟨m, hm⟩ := hfound op hop name htokens.symm
    have hdata := h.data _ m hm
    constructor
    · rintro ⟨i, hi, rfl⟩
      obtain rfl := some.inj (hm.symm.trans hi)
      exact hdata.symm
    · exact fun hstored => ⟨m, hm, hdata.trans hstored⟩
  | none =>
    constructor
    · intro hnone op hop heq
      obtain ⟨m, hm⟩ := hfound op hop op.name rfl
      exact hnone m ((h.same _ _ m hm).mpr heq) op hop hm
    · intro hne i hi op hop hop'
      exact hne op hop ((h.same _ _ i hi).mp hop').symm

theorem resolved_of_finds (h : Finds k ops name) :
    resolved k ops name = latest ops (nsTokens name.chars) := by
  unfold Finds at h
  unfold resolved
  cases hlatest : latest ops (nsTokens name.chars) with
  | some data =>
    rw [hlatest] at h
    obtain ⟨i, hi, rfl⟩ := h
    obtain ⟨op, hop, htokens⟩ := exists_of_latest hlatest
    have hop' : k.ipcNsFind op.name.chars = some i := by
      rw [← hi, ipcNsFind_eq, ipcNsFind_eq]
      unfold tokens at htokens
      rw [htokens]
    have hended : decide (∃ op ∈ ops, k.ipcNsFind op.name.chars = some i) = true :=
      decide_eq_true ⟨op, hop, hop'⟩
    rw [hi]
    exact congrArg (Option.map k.nsData) (filter_some_pos hended)
  | none =>
    rw [hlatest] at h
    cases hi : k.ipcNsFind name.chars with
    | none => rfl
    | some i =>
      have hended : decide (∃ op ∈ ops, k.ipcNsFind op.name.chars = some i) = false := by
        simpa using h i hi
      exact congrArg (Option.map k.nsData) (filter_some_neg hended)

/-- The name space is a map exactly for names that share their entries with no others. -/
theorem isMap_iff_unshared (k : Kernel) (ops : List NsInsert) (name : CString 64)
    (hok : Guarded step Succeeds k.ipcSubsystemInit ops) :
    IsMap k.ipcSubsystemInit ops name ↔ ∀ pre, pre <+: ops → Unshared pre name := by
  have hfinds : ∀ pre, pre <+: ops →
      (Finds (run step k.ipcSubsystemInit pre) pre name ↔ Unshared pre name) := by
    rintro pre ⟨rest, rfl⟩
    exact finds_iff_unshared (nsRep_run (nsRep_init k) (guarded_append.mp hok).1).lookups
  constructor
  · exact fun h pre hpre => (hfinds pre hpre).mp (h.finds pre hpre)
  · intro h
    refine ⟨fun pre hpre => (hfinds pre hpre).mpr (h pre hpre), fun pre op hpre hne => ?_⟩
    have hpre' := (prefix_append pre [op]).trans hpre
    rw [resolved_of_finds ((hfinds _ hpre).mpr (h _ hpre)),
      resolved_of_finds ((hfinds _ hpre').mpr (h _ hpre')), latest_concat_of_ne hne]

def services : List NsInsert :=
  [⟨strncpy 64 (bytes "net.tcp"), 1, 2⟩, ⟨strncpy 64 (bytes "net.udp"), 1, 3⟩,
    ⟨strncpy 64 (bytes "net"), 1, 4⟩, ⟨strncpy 64 (bytes "net.tcp"), 1, 5⟩]

theorem services_isMap : IsMap boot services (strncpy 64 (bytes "net.tcp")) := by
  have hall : ∀ pre ∈ services.inits, Unshared pre (strncpy 64 (bytes "net.tcp")) := by
    decide +kernel
  exact (isMap_iff_unshared _ services _ ⟨by decide, by decide, by decide, by decide,
    trivial⟩).mpr fun pre hpre => hall pre ((mem_inits _ _).mpr hpre)

def serviceA : List NsInsert := [⟨strncpy 64 (bytes "a"), 1, 2⟩]

/-- The name `a.a`, which was never inserted, leads to the entry of `a`. -/
theorem serviceA_found_as_a_a :
    Guarded step Succeeds boot serviceA ∧ latest serviceA (nsTokens (bytes "a.a")) = none ∧
      (run step boot serviceA).ipcNsFind (bytes "a.a") = some 0 ∧
      (run step boot serviceA).ipcNsFind (bytes "a") = some 0 ∧
      ¬ IsMap boot serviceA (strncpy 64 (bytes "a.a")) := by
  refine ⟨⟨by decide, trivial⟩, by decide, by decide, by decide,
    fun hmap => ?_⟩
  have hnone : latest serviceA (nsTokens (strncpy 64 (bytes "a.a")).chars) = none := by
    decide
  have hfinds := (finds_of_none hnone).mp (hmap.finds serviceA (prefix_refl _))
  exact hfinds 0 (by decide) _ mem_cons_self (by decide)

end NsInsert
end SageOS
