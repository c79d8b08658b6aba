import SageOS.NameSpace

/-!
# Inserting into the name space

The first token that is ever inserted becomes the loop of the root. From then on an insert adds the
missing entries along the path of its tokens and stores its handle and owner in the last one; when
the pool runs out, the entries that were added stay and carry nothing. Paths that differ in leading
copies of the first token lead to the same entry.
-/
namespace SageOS
open LinkedChain PathGraph List Function

theorem dropWhile_prefix {α : Type} (p : α → Bool) {l m : List α} (h : l <+: m) :
    l.dropWhile p <+: m.dropWhile p := by
  induction l generalizing m with
  | nil => exact nil_prefix
  | cons a l ih =>
    obtain ⟨rest, rfl⟩ := h
    rw [cons_append]
    by_cases ha : p a
    · rw [dropWhile_cons_of_pos ha, dropWhile_cons_of_pos ha]
      exact ih (prefix_append l rest)
    · rw [dropWhile_cons_of_neg ha, dropWhile_cons_of_neg ha]
      exact prefix_append (a :: l) rest

namespace Kernel

/-- The name space after its first entry has been allocated for the token `a`. -/
structure NsTree (k : Kernel) (a : Bytes) : Prop extends NsShape k where
  pos : 0 < k.nsCount
  root : k.nsRoot = some 0
  tree : LoopTree k.nsEdge 0 a
  blank : ∀ i, k.nsCount ≤ i → k.nsData i = (0, 0)

/-- From `k` to `k'` the entries that are missing on the path `q` may have been added. -/
structure NsGrown (k k' : Kernel) (a : Bytes) (q : List Bytes) : Prop where
  tree : NsTree k' a
  sub : Sub k.nsEdge k'.nsEdge
  count : k.nsCount ≤ k'.nsCount
  paths : ∀ ts m, follow k'.nsEdge 0 ts = some m → follow k.nsEdge 0 ts = some m ∨
    k.nsCount ≤ m ∧ ts.dropWhile (· = a) <+: q.dropWhile (· = a)

variable {k k' k'' : Kernel} {a token : Bytes} {cur : ℕ} {p q : List Bytes}

theorem NsGrown.refl (h : NsTree k a) (q : List Bytes) : NsGrown k k a q :=
  ⟨h, fun _ _ _ hedge => hedge, le_rfl, fun _ _ hts => .inl hts⟩

theorem NsGrown.trans (h : NsGrown k k' a q) (h' : NsGrown k' k'' a q) : NsGrown k k'' a q where
  tree := h'.tree
  sub s t n hedge := h'.sub s t n (h.sub s t n hedge)
  count := h.count.trans h'.count
  paths ts m hts := by
    rcases h'.paths ts m hts with hold | ⟨hm, hpre⟩
    · exact h.paths ts m hold
    · exact .inr ⟨h.count.trans hm, hpre⟩

theorem NsAdded.nsData_eq (h : NsAdded k k' cur token) (hblank : k.nsData k.nsCount = (0, 0)) :
    k'.nsData = k.nsData := by
  funext i
  rw [h.data]
  split_ifs with hi
  · rw [hi, hblank]
  · rfl

theorem NsAdded.nsTree (h : NsTree k a) (hadd : NsAdded k k' cur token) : NsTree k' a where
  toNsShape := hadd.shape
  pos := by
    rw [hadd.count]
    omega
  root := hadd.root.trans h.root
  tree := h.tree.grows hadd.grows h.pos.ne' fun s t hedge =>
    (h.lt_of_nsEdge hedge).2.ne rfl
  blank i hi := by
    rw [hadd.count] at hi
    rw [hadd.nsData_eq (h.blank _ le_rfl)]
    exact h.blank i (by omega)

theorem NsAdded.nsGrown (h : NsTree k a) (hadd : NsAdded k k' cur token)
    (hp : follow k.nsEdge 0 p = some cur) (hcur : cur < k.nsCount) (hq : p ++ [token] <+: q) :
    NsGrown k k' a q where
  tree := hadd.nsTree h
  sub := hadd.grows.sub
  count := by
    rw [hadd.count]
    exact Nat.le_succ _
  paths ts m hts := by
    have hleaf : ∀ u, k'.nsEdge k.nsCount u = none := by
      intro u
      rw [hadd.grows.other _ _ fun heq => hcur.ne (Prod.mk.inj heq).1.symm]
      cases hedge : k.nsEdge k.nsCount u with
      | none => rfl
      | some n => exact absurd (h.lt_of_nsEdge hedge).1 (lt_irrefl _)
    by_cases hm : m = k.nsCount
    · have hnew : follow k'.nsEdge 0 (p ++ [token]) = some m :=
        follow_concat_eq_some_iff.mpr ⟨cur, hadd.grows.sub.follow hp, hm ▸ hadd.grows.edge⟩
      rw [((hadd.nsTree h).tree.follow_eq_iff hts).mp hnew]
      exact .inr ⟨hm.ge, dropWhile_prefix _ hq⟩
    · exact .inl (hadd.grows.follow_old hleaf hm hts)

theorem NsTree.lt_of_follow (h : NsTree k a) (hp : follow k.nsEdge 0 p = some cur) :
    cur < k.nsCount := by
  induction p using List.reverseRecOn with
  | nil =>
    obtain rfl := Option.some.inj hp
    exact h.pos
  | append_singleton p t _ =>
    obtain ⟨m, -, hedge⟩ := follow_concat_eq_some_iff.mp hp
    exact (h.lt_of_nsEdge hedge).2

/-- The links and names of all entries are the same. -/
structure SameLinks (k k' : Kernel) : Prop where
  name : ∀ i, (k'.nsEntries i).name = (k.nsEntries i).name
  child : ∀ i, (k'.nsEntries i).child = (k.nsEntries i).child
  sibling : ∀ i, (k'.nsEntries i).sibling = (k.nsEntries i).sibling
  count : k'.nsCount = k.nsCount
  root : k'.nsRoot = k.nsRoot

namespace SameLinks

theorem nsFindChild (h : SameLinks k k') (fuel : ℕ) (head : Option ℕ) :
    k'.nsFindChild token fuel head = k.nsFindChild token fuel head := by
  induction fuel generalizing head with
  | zero => rfl
  | succ fuel ih =>
    cases head with
    | none => rfl
    | some i => rw [Kernel.nsFindChild, Kernel.nsFindChild, h.name, h.sibling, ih]

theorem nsEdge (h : SameLinks k k') : k'.nsEdge = k.nsEdge := by
  funext i t
  rw [Kernel.nsEdge, Kernel.nsEdge, nsChild, nsChild, h.nsFindChild, h.child]

theorem nsShape (h : SameLinks k k') (hk : k.NsShape) : k'.NsShape where
  bound := h.count ▸ hk.bound
  unused i hi := by
    rw [h.count] at hi
    rw [h.child, hk.unused i hi]
  lists i := by
    obtain ⟨l, hl, hlt⟩ := hk.lists i
    rw [h.child, h.count]
    exact ⟨l, hl.congr fun j _ => h.sibling j, hlt⟩

end SameLinks

def nsStore (k : Kernel) (i : ℕ) (data : ℕ × ℕ) : Kernel :=
  k.setNsEntry i { k.nsEntries i with capHandle := data.1, ownerTaskId := data.2 }

theorem nsEntries_nsStore (k : Kernel) (i : ℕ) (data : ℕ × ℕ) (j : ℕ) :
    (k.nsStore i data).nsEntries j = if j = i then
      { k.nsEntries i with capHandle := data.1, ownerTaskId := data.2 } else k.nsEntries j :=
  update_apply _ _ _ _

theorem sameLinks_nsStore (k : Kernel) (i : ℕ) (data : ℕ × ℕ) : SameLinks k (k.nsStore i data) := by
  refine ⟨fun j => ?_, fun j => ?_, fun j => ?_, rfl, rfl⟩ <;>
  · rw [nsEntries_nsStore]
    split_ifs with hj
    · rw [hj]
    · rfl

theorem nsData_nsStore (k : Kernel) (i : ℕ) (data : ℕ × ℕ) :
    (k.nsStore i data).nsData = update k.nsData i data := by
  funext j
  rw [nsData, nsEntries_nsStore, update_apply]
  split_ifs <;> rfl

theorem NsTree.nsStore (h : NsTree k a) {i : ℕ} (hi : i < k.nsCount) (data : ℕ × ℕ) :
    NsTree (k.nsStore i data) a where
  toNsShape := (sameLinks_nsStore k i data).nsShape h.toNsShape
  pos := h.pos
  root := h.root
  tree := by
    rw [(sameLinks_nsStore k i data).nsEdge]
    exact h.tree
  blank j hj := by
    have hj' : k.nsCount ≤ j := hj
    rw [nsData_nsStore, update_of_ne (by omega)]
    exact h.blank j hj

theorem nsInsertTokens_tree (handle owner : ℕ) {ts : List Bytes} (hts : ∀ t ∈ ts, IsToken t)
    (h : NsTree k a) (hp : follow k.nsEdge 0 p = some cur) :
    NsGrown k (nsInsertTokens handle owner k cur ts).2 a (p ++ ts) ∧
      ((nsInsertTokens handle owner k cur ts).1 = 0 ∧
        (∃ e, follow (nsInsertTokens handle owner k cur ts).2.nsEdge 0 (p ++ ts) = some e ∧
          (nsInsertTokens handle owner k cur ts).2.nsData =
            update k.nsData e (handle, owner)) ∨
      (nsInsertTokens handle owner k cur ts).1 = -1 ∧
        follow (nsInsertTokens handle owner k cur ts).2.nsEdge 0 (p ++ ts) = none ∧
        (nsInsertTokens handle owner k cur ts).2.nsData = k.nsData) := by
  have hcur := h.lt_of_follow hp
  induction ts generalizing k cur p with
  | nil =>
    have hsame := (sameLinks_nsStore k cur (handle, owner)).nsEdge
    rw [append_nil]
    refine ⟨⟨h.nsStore hcur (handle, owner), ?_, le_rfl, ?_⟩, .inl ⟨rfl, cur, ?_, ?_⟩⟩
    · exact fun s t n hedge => (congrFun (congrFun hsame s) t).trans hedge
    · intro us m hus
      exact .inl (hsame ▸ hus)
    · exact (congrArg (follow · 0 p) hsame).trans hp
    · exact nsData_nsStore k cur (handle, owner)
  | cons t ts ih =>
    have htok := hts t mem_cons_self
    have hrest := fun u hu => hts u (mem_cons_of_mem t hu)
    have happ : p ++ t :: ts = (p ++ [t]) ++ ts := by simp
    unfold nsInsertTokens
    rcases nsExtend_cases h.toNsShape hcur.le htok with
      ⟨n, hedge, hrun⟩ | ⟨k₁, hrun, hadd⟩ | ⟨hmiss, -, hrun⟩
    · have hpath := follow_concat_eq_some_iff.mpr ⟨cur, hp, hedge⟩
      rw [hrun, happ]
      exact ih hrest h hpath (h.lt_of_follow hpath)
    · have hstep := hadd.nsGrown h hp hcur (q := (p ++ [t]) ++ ts) (prefix_append _ _)
      have hpath := follow_concat_eq_some_iff.mpr ⟨cur, hadd.grows.sub.follow hp, hadd.grows.edge⟩
      obtain ⟨hgrown, hend⟩ := ih hrest hstep.tree hpath (hstep.tree.lt_of_follow hpath)
      rw [hrun, happ]
      rw [hadd.nsData_eq (h.blank _ le_rfl)] at hend
      exact ⟨hstep.trans hgrown, hend⟩
    · rw [hrun]
      refine ⟨.refl h _, .inr ⟨rfl, ?_, rfl⟩⟩
      rw [follow_append, hp, Option.bind_some, follow_cons, hmiss]
      rfl

theorem NsAdded.first (hzero : k.nsCount = 0) (hshape : k.NsShape) (hroot : k.nsRoot = some 0)
    (hblank : ∀ i, i ≠ 0 → k.nsData i = (0, 0)) (hadd : NsAdded k k' 0 token) :
    NsTree k' token ∧ k'.nsData = fun _ => (0, 0) := by
  have hnone : ∀ s t n, k.nsEdge s t ≠ some n := by
    intro s t n hedge
    have hlt := (hshape.lt_of_nsEdge hedge).1
    omega
  have hedge : ∀ {s t n}, k'.nsEdge s t = some n → s = 0 ∧ t = token ∧ n = 0 := by
    intro s t n h
    rcases hadd.grows.cases h with ⟨hs, ht, hn⟩ | hold
    · exact ⟨hs, ht, hn.trans hzero⟩
    · exact absurd hold (hnone s t n)
  have hdata : k'.nsData = fun _ => (0, 0) := by
    funext i
    rw [hadd.data, hzero]
    split_ifs with hi
    · rfl
    · exact hblank i hi
  refine ⟨⟨hadd.shape, ?_, hadd.root.trans hroot, ⟨?_, ?_, ?_⟩, fun i _ => congrFun hdata i⟩, hdata⟩
  · rw [hadd.count]
    omega
  · rw [hadd.grows.edge, hzero]
  · exact fun s t h => ⟨(hedge h).1, (hedge h).2.1⟩
  · exact fun s t s' t' n hn h _ => absurd (hedge h).2.2 hn

end Kernel
end SageOS
