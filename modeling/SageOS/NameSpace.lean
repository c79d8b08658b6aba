import SageOS.IpcSyscalls
import SageOS.LinkedChain
import SageOS.PathGraph

/-!
# The name space as a graph

The children of an entry are a list that is linked by `sibling`, and a token leads from an entry to
its child of that name. Allocation starts at entry 0, which is the root: the first entry that is
allocated is the root itself, and its token becomes a loop. From then on the entries are a trie
apart from that loop, and an insert keeps all edges and the data of all other entries.
-/
namespace SageOS
open LinkedChain PathGraph List

theorem sublist_of_mem_splitOnP {p : UInt8 → Bool} {l c : Bytes} (hc : c ∈ l.splitOnP p) :
    c.Sublist l := by
  induction l generalizing c with
  | nil =>
    rw [splitOnP_nil, mem_singleton] at hc
    rw [hc]
  | cons x l ih =>
    rw [splitOnP_cons_eq_if_modifyHead] at hc
    obtain ⟨d, rest, hd⟩ := exists_cons_of_ne_nil (splitOnP_ne_nil p l)
    split_ifs at hc with hx
    · rcases mem_cons.mp hc with rfl | hc
      · exact nil_sublist _
      · exact (ih hc).cons x
    · rw [hd, modifyHead_cons] at hc
      rcases mem_cons.mp hc with rfl | hc
      · exact (ih (hd ▸ mem_cons_self)).cons_cons x
      · exact (ih (hd ▸ mem_cons_of_mem d hc)).cons x

/-- What `strtok` yields from a name that fits its buffer. -/
def IsToken (t : Bytes) : Prop := 0 ∉ t ∧ t.length < 64

theorem IsToken.strncpy {t : Bytes} (ht : IsToken t) : (strncpy 64 t).chars = t := by
  have hnul : t.takeWhile (· ≠ 0) = t := by
    refine takeWhile_eq_self_iff.mpr fun x hx => ?_
    simpa using fun h : x = 0 => ht.1 (h ▸ hx)
  have hlen : t.length ≤ 63 := Nat.le_of_lt_succ ht.2
  change (t.takeWhile (· ≠ 0)).take 63 = t
  rw [hnul, take_of_length_le hlen]

theorem isToken_chars (s : CString 64) : IsToken s.chars := ⟨s.nul_free, s.length_lt⟩

theorem isToken_of_mem_nsTokens {name t : Bytes} (ht : t ∈ Kernel.nsTokens name) : IsToken t := by
  have hsub := sublist_of_mem_splitOnP (mem_of_mem_filter ht)
  have hbuf := isToken_chars (strncpy 64 name)
  exact ⟨fun h => hbuf.1 (hsub.subset h), lt_of_le_of_lt hsub.length_le hbuf.2⟩

theorem strcmp_chars_eq_zero_iff (s : CString 64) {t : Bytes} (ht : 0 ∉ t) :
    strcmp s.chars t = 0 ↔ s.chars = t := by
  rw [strcmp_eq_zero_iff _ _ ht]
  constructor
  · rintro ⟨⟨rest, hrest⟩, hend⟩
    cases rest with
    | nil => rw [← hrest, append_nil]
    | cons x rest =>
      have hx : s.chars.getD t.length 0 = x := by simp [← hrest]
      have hmem : x ∈ s.chars := by simp [← hrest]
      rw [hx] at hend
      exact absurd (hend ▸ hmem) s.nul_free
  · intro heq
    simp [heq]

namespace Kernel
variable (k : Kernel)

def nsSibling (i : ℕ) : Option ℕ := (k.nsEntries i).sibling

def nsData (i : ℕ) : ℕ × ℕ := ((k.nsEntries i).capHandle, (k.nsEntries i).ownerTaskId)

/-- The graph of the name space. -/
def nsEdge (i : ℕ) (t : Bytes) : Option ℕ := if 0 ∈ t then none else k.nsChild i t

/-- Sibling lists end, within the allocated part of the pool. -/
structure NsShape : Prop where
  bound : k.nsCount ≤ ipcMaxNsEntries
  unused : ∀ i, k.nsCount ≤ i → (k.nsEntries i).child = none
  lists : ∀ i, ∃ l, Linked k.nsSibling (k.nsEntries i).child l ∧ ∀ j ∈ l, j < k.nsCount

variable {k}
variable {l : List ℕ} {token : Bytes}

theorem nsFindChild_linked {head : Option ℕ} {fuel : ℕ}
    (hl : Linked k.nsSibling head l) (hfuel : l.length < fuel) :
    k.nsFindChild token fuel head =
      l.find? fun i => strcmp (k.nsEntries i).name.chars token = 0 := by
  induction l generalizing head fuel with
  | nil =>
    obtain ⟨fuel, rfl⟩ : ∃ n, fuel = n + 1 := ⟨fuel - 1, by omega⟩
    rw [linked_nil.mp hl]
    rfl
  | cons i l ih =>
    obtain ⟨fuel, rfl⟩ : ∃ n, fuel = n + 1 := ⟨fuel - 1, by omega⟩
    obtain ⟨rfl, hrest⟩ := linked_cons.mp hl
    rw [nsFindChild, find?_cons]
    by_cases heq : strcmp (k.nsEntries i).name.chars token = 0
    · rw [if_pos heq, decide_eq_true heq]
    · rw [if_neg heq, decide_eq_false heq]
      exact ih hrest (by simpa using hfuel)

theorem length_le_of_linked (h : k.NsShape) {head : Option ℕ}
    (hl : Linked k.nsSibling head l) (hlt : ∀ j ∈ l, j < k.nsCount) :
    l.length ≤ ipcMaxNsEntries := by
  have hsub : l ⊆ range k.nsCount := fun j hj => mem_range.mpr (hlt j hj)
  have hlen := (subperm_of_subset hl.nodup hsub).length_le
  rw [length_range] at hlen
  exact hlen.trans h.bound

theorem nsEdge_linked (h : k.NsShape) {i : ℕ}
    (hl : Linked k.nsSibling (k.nsEntries i).child l) (hlt : ∀ j ∈ l, j < k.nsCount) {t : Bytes}
    (ht : 0 ∉ t) : k.nsEdge i t = l.find? fun j => (k.nsEntries j).name.chars = t := by
  have hlen := length_le_of_linked h hl hlt
  rw [nsEdge, if_neg ht, nsChild, nsFindChild_linked hl (by omega)]
  congr 1
  funext j
  exact decide_eq_decide.mpr (strcmp_chars_eq_zero_iff _ ht)

theorem NsShape.lt_of_nsEdge (h : k.NsShape) {i n : ℕ} {t : Bytes} (hedge : k.nsEdge i t = some n) :
    i < k.nsCount ∧ n < k.nsCount := by
  have ht : 0 ∉ t := by
    intro hmem
    rw [nsEdge, if_pos hmem] at hedge
    cases hedge
  obtain ⟨l, hl, hlt⟩ := h.lists i
  rw [nsEdge_linked h hl hlt ht] at hedge
  refine ⟨?_, hlt n (mem_of_find?_eq_some hedge)⟩
  by_contra hge
  rw [h.unused i (by omega)] at hl
  cases l with
  | nil => cases hedge
  | cons j l => cases (linked_cons.mp hl).1

theorem ipcNsFind_eq (name : Bytes) :
    k.ipcNsFind name = k.nsRoot.bind fun root => follow k.nsEdge root (nsTokens name) := by
  have hall : ∀ t ∈ nsTokens name, 0 ∉ t := fun t ht => (isToken_of_mem_nsTokens ht).1
  have hfold : ∀ ts : List Bytes, (∀ t ∈ ts, 0 ∉ t) → ∀ i,
      ts.foldlM (fun cur token => k.nsChild cur token) i = follow k.nsEdge i ts := by
    intro ts hts
    induction ts with
    | nil => exact fun i => rfl
    | cons t ts ih =>
      intro i
      rw [foldlM_cons, follow_cons, nsEdge, if_neg (hts t mem_cons_self)]
      exact congrArg _ (funext (ih fun u hu => hts u (mem_cons_of_mem t hu)))
  exact congrArg _ (funext (hfold _ hall))

/-- One more entry, for `token` under `cur`. -/
structure NsAdded (k k' : Kernel) (cur : ℕ) (token : Bytes) : Prop where
  shape : k'.NsShape
  grows : Grows k.nsEdge k'.nsEdge cur token k.nsCount
  count : k'.nsCount = k.nsCount + 1
  root : k'.nsRoot = k.nsRoot
  data : ∀ i, k'.nsData i = if i = k.nsCount then (0, 0) else k.nsData i

def nsAdd (k : Kernel) (cur : ℕ) (token : Bytes) : Kernel :=
  let n := k.nsCount
  let k₁ := { k with nsCount := n + 1 }.setNsEntry n { name := strncpy 64 token }
  let k₂ := k₁.setNsEntry n { k₁.nsEntries n with sibling := (k₁.nsEntries cur).child }
  k₂.setNsEntry cur { k₂.nsEntries cur with child := some n }

theorem nsEntries_nsAdd (h : k.NsShape) (cur : ℕ) (token : Bytes) (i : ℕ) :
    (k.nsAdd cur token).nsEntries i =
      let e := if i = k.nsCount then
          { name := strncpy 64 token, sibling := (k.nsEntries cur).child }
        else k.nsEntries i
      if i = cur then { e with child := some k.nsCount } else e := by
  have hunused := h.unused k.nsCount le_rfl
  by_cases hcur : cur = k.nsCount
  · by_cases hi : i = k.nsCount <;> simp [nsAdd, setNsEntry, hi, hcur, hunused]
  · by_cases hi : i = k.nsCount
    · simp [nsAdd, setNsEntry, hi, hcur, Ne.symm hcur]
    · by_cases hic : i = cur <;> simp [nsAdd, setNsEntry, hi, hcur, hic]

theorem nsSibling_nsAdd (h : k.NsShape) {cur i : ℕ} (token : Bytes) (hi : i ≠ k.nsCount) :
    (k.nsAdd cur token).nsSibling i = k.nsSibling i ∧
      ((k.nsAdd cur token).nsEntries i).name = (k.nsEntries i).name := by
  unfold nsSibling
  rw [nsEntries_nsAdd h, if_neg hi]
  split_ifs <;> exact ⟨rfl, rfl⟩

theorem nsSibling_nsAdd_self (h : k.NsShape) (cur : ℕ) (token : Bytes) :
    (k.nsAdd cur token).nsSibling k.nsCount = (k.nsEntries cur).child ∧
      ((k.nsAdd cur token).nsEntries k.nsCount).name = strncpy 64 token := by
  unfold nsSibling
  rw [nsEntries_nsAdd h, if_pos rfl]
  split_ifs <;> exact ⟨rfl, rfl⟩

theorem linked_nsAdd (h : k.NsShape) (cur : ℕ) (token : Bytes) {i : ℕ}
    (hl : Linked k.nsSibling (k.nsEntries i).child l) (hlt : ∀ j ∈ l, j < k.nsCount) :
    Linked (k.nsAdd cur token).nsSibling ((k.nsAdd cur token).nsEntries i).child
      (if i = cur then k.nsCount :: l else l) := by
  have hold : ∀ {head : Option ℕ}, Linked k.nsSibling head l →
      Linked (k.nsAdd cur token).nsSibling head l :=
    fun hl => hl.congr fun j hj => (nsSibling_nsAdd h token (hlt j hj).ne).1
  by_cases hi : i = cur
  · subst hi
    rw [if_pos rfl, linked_cons, (nsSibling_nsAdd_self h i token).1, nsEntries_nsAdd h, if_pos rfl]
    exact ⟨rfl, hold hl⟩
  · rw [if_neg hi, nsEntries_nsAdd h, if_neg hi]
    by_cases hn : i = k.nsCount
    · rw [hn, h.unused _ le_rfl] at hl
      rw [if_pos hn]
      exact hold hl
    · rw [if_neg hn]
      exact hold hl

variable {cur : ℕ}

theorem nsShape_nsAdd (h : k.NsShape) (hcur : cur ≤ k.nsCount)
    (hroom : k.nsCount < ipcMaxNsEntries) (token : Bytes) : (k.nsAdd cur token).NsShape where
  bound := hroom
  unused i hi := by
    have hi' : k.nsCount + 1 ≤ i := hi
    rw [nsEntries_nsAdd h, if_neg (by omega), if_neg (by omega)]
    exact h.unused i (by omega)
  lists i := by
    obtain ⟨l, hl, hlt⟩ := h.lists i
    refine ⟨_, linked_nsAdd h cur token hl hlt, fun j hj => ?_⟩
    split_ifs at hj with hi
    · rcases mem_cons.mp hj with rfl | hj
      · exact Nat.lt_succ_self _
      · exact (hlt j hj).trans (Nat.lt_succ_self _)
    · exact (hlt j hj).trans (Nat.lt_succ_self _)

theorem nsAdded_nsAdd (h : k.NsShape) (hcur : cur ≤ k.nsCount)
    (hroom : k.nsCount < ipcMaxNsEntries) (htok : IsToken token)
    (hmiss : k.nsEdge cur token = none) : NsAdded k (k.nsAdd cur token) cur token := by
  have hshape := nsShape_nsAdd h hcur hroom token
  have hedge : ∀ i t, 0 ∉ t → (k.nsAdd cur token).nsEdge i t =
      if i = cur ∧ token = t then some k.nsCount else k.nsEdge i t := by
    intro i t ht
    obtain ⟨l, hl, hlt⟩ := h.lists i
    have hnames : l.find? (fun j => ((k.nsAdd cur token).nsEntries j).name.chars = t) =
        l.find? fun j => (k.nsEntries j).name.chars = t := by
      refine find?_congr fun j hj => ?_
      rw [(nsSibling_nsAdd h token (hlt j hj).ne).2]
    have hl' := linked_nsAdd h cur token hl hlt
    obtain ⟨l', hlin, hlt'⟩ := hshape.lists i
    obtain rfl := hl'.unique hlin
    rw [nsEdge_linked hshape hl' hlt' ht, nsEdge_linked h hl hlt ht]
    by_cases hi : i = cur
    · rw [if_pos hi, find?_cons, (nsSibling_nsAdd_self h cur token).2, htok.strncpy, hnames]
      by_cases heq : token = t <;> simp [heq, hi]
    · rw [if_neg hi, hnames, if_neg fun h => hi h.1]
  refine ⟨hshape, ⟨hmiss, ?_, fun i t hne => ?_⟩, rfl, rfl, fun i => ?_⟩
  · rw [hedge cur token htok.1, if_pos ⟨rfl, rfl⟩]
  · by_cases ht : 0 ∈ t
    · rw [nsEdge, nsEdge, if_pos ht, if_pos ht]
    · rw [hedge i t ht, if_neg fun heq => hne (by rw [heq.1, heq.2])]
  · unfold nsData
    rw [nsEntries_nsAdd h]
    split_ifs <;> rfl

theorem nsExtend_cases (h : k.NsShape) (hcur : cur ≤ k.nsCount) (htok : IsToken token) :
    (∃ n, k.nsEdge cur token = some n ∧ k.nsExtend cur token = some (n, k)) ∨
      (∃ k', k.nsExtend cur token = some (k.nsCount, k') ∧ NsAdded k k' cur token) ∨
      (k.nsEdge cur token = none ∧ ipcMaxNsEntries ≤ k.nsCount ∧ k.nsExtend cur token = none) := by
  have hchild : k.nsEdge cur token = k.nsChild cur token := if_neg htok.1
  unfold nsExtend
  rw [← hchild]
  cases hedge : k.nsEdge cur token with
  | some n => exact .inl ⟨n, rfl, rfl⟩
  | none =>
    by_cases hfull : ipcMaxNsEntries ≤ k.nsCount
    · exact .inr (.inr ⟨rfl, hfull, if_pos hfull⟩)
    · rw [if_neg hfull]
      exact .inr (.inl ⟨_, rfl, nsAdded_nsAdd h hcur (by omega) htok hedge⟩)

end Kernel
end SageOS
