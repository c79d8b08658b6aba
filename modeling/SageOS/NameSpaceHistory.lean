import SageOS.NameSpaceTree

/-!
# What the name space holds after a history of inserts

The history of a name space lists the inserts that were tried. It determines which paths lead to
the same entry and what each entry carries: the handle and owner of the last insert that ended in
it. Inserts of empty token lists before the first entry is allocated are lost with it, because that
entry is the root.
-/
namespace SageOS
open LinkedChain PathGraph List

structure NsAttempt where
  tokens : List Bytes
  handle : ℕ
  owner : ℕ
  done : Bool

namespace NsAttempt

def firstToken (l : List NsAttempt) : Option Bytes := (l.flatMap tokens).head?

/-- Token lists that lead to the same entry have the same canonical form. -/
def canonical (l : List NsAttempt) (ts : List Bytes) : List Bytes :=
  ts.dropWhile fun t => some t = firstToken l

def effective (l : List NsAttempt) : List NsAttempt :=
  if firstToken l = none then l else l.dropWhile fun x => x.tokens = []

/-- The handle and owner that the entry of a token list carries. -/
def stored (l : List NsAttempt) (ts : List Bytes) : ℕ × ℕ :=
  (((effective l).filter fun x => x.done ∧ canonical l x.tokens = canonical l ts).getLast?.map
    fun x => (x.handle, x.owner)).getD (0, 0)

variable {l : List NsAttempt} {x : NsAttempt} {a : Bytes}

theorem firstToken_concat (l : List NsAttempt) (x : NsAttempt) :
    firstToken (l ++ [x]) = (firstToken l).or x.tokens.head? := by
  simp [firstToken, head?_append]

theorem firstToken_eq_none_iff : firstToken l = none ↔ ∀ x ∈ l, x.tokens = [] := by
  simp [firstToken, head?_eq_none_iff]

theorem canonical_of_first (h : firstToken l = some a) (ts : List Bytes) :
    canonical l ts = ts.dropWhile (· = a) := by
  simp only [canonical, h, Option.some.injEq]

theorem canonical_of_none (h : firstToken l = none) (ts : List Bytes) : canonical l ts = ts := by
  unfold canonical
  rw [h]
  cases ts <;> rfl

theorem canonical_congr {l' : List NsAttempt} (h : firstToken l' = firstToken l) (ts : List Bytes) :
    canonical l' ts = canonical l ts := by
  unfold canonical
  rw [h]

variable {ts : List Bytes}

theorem stored_of_effective_concat {l' : List NsAttempt}
    (heff : effective l' = effective l ++ [x]) (hfirst : firstToken l' = firstToken l) :
    stored l' ts = if x.done ∧ canonical l x.tokens = canonical l ts then (x.handle, x.owner)
      else stored l ts := by
  unfold stored
  rw [heff, filter_append]
  simp only [canonical_congr hfirst]
  by_cases h : x.done ∧ canonical l x.tokens = canonical l ts
  · rw [if_pos h, filter_singleton, decide_eq_true h]
    simp
  · rw [if_neg h, filter_singleton, decide_eq_false h]
    simp

theorem stored_eq_zero
    (h : ∀ x ∈ l, x.done → canonical l x.tokens ≠ canonical l ts) : stored l ts = (0, 0) := by
  have hsub : effective l ⊆ l := by
    unfold effective
    split_ifs
    · exact fun x hx => hx
    · exact (dropWhile_suffix _).subset
  have hnil : ((effective l).filter fun x => x.done ∧ canonical l x.tokens = canonical l ts) = [] :=
    filter_eq_nil_iff.mpr fun x hx => by
      simpa using h x (hsub hx)
  unfold stored
  rw [hnil]
  rfl

theorem effective_concat_of_first (h : firstToken l = some a) (x : NsAttempt) :
    effective (l ++ [x]) = effective l ++ [x] := by
  have hsome : firstToken (l ++ [x]) = some a := by
    rw [firstToken_concat, h]
    rfl
  unfold effective
  rw [if_neg (by rw [hsome]; nofun), if_neg (by rw [h]; nofun), dropWhile_append]
  have hne : (l.dropWhile fun x => decide (x.tokens = [])) ≠ [] := by
    intro hnil
    have hall : ∀ y ∈ l, y.tokens = [] := fun y hy => by
      simpa using dropWhile_eq_nil_iff.mp hnil y hy
    rw [firstToken_eq_none_iff.mpr hall] at h
    cases h
  rw [if_neg (by simpa using hne)]

theorem stored_concat_of_first (h : firstToken l = some a) (x : NsAttempt) (ts : List Bytes) :
    stored (l ++ [x]) ts = if x.done ∧ canonical l x.tokens = canonical l ts then
      (x.handle, x.owner) else stored l ts := by
  refine stored_of_effective_concat (effective_concat_of_first h x) ?_
  rw [firstToken_concat, h]
  rfl

theorem stored_concat_of_none (h : firstToken l = none) {t : Bytes}
    (hx : x.tokens = t :: ts) (us : List Bytes) :
    stored (l ++ [x]) us =
      if x.done ∧ canonical (l ++ [x]) x.tokens = canonical (l ++ [x]) us then
        (x.handle, x.owner) else (0, 0) := by
  have hsome : firstToken (l ++ [x]) = some t := by
    rw [firstToken_concat, h, hx]
    rfl
  have heff : effective (l ++ [x]) = [x] := by
    have hnil : (l.dropWhile fun x => decide (x.tokens = [])) = [] :=
      dropWhile_eq_nil_iff.mpr fun y hy => by
        simpa using firstToken_eq_none_iff.mp h y hy
    unfold effective
    rw [if_neg (by rw [hsome]; nofun), dropWhile_append, hnil, isEmpty_nil, if_pos rfl,
      dropWhile_cons_of_neg (by simp [hx])]
  unfold stored
  rw [heff, filter_singleton]
  by_cases hdone : x.done ∧ canonical (l ++ [x]) x.tokens = canonical (l ++ [x]) us
  · rw [if_pos hdone, decide_eq_true hdone]
    rfl
  · rw [if_neg hdone, decide_eq_false hdone]
    rfl

end NsAttempt

namespace Kernel
open NsAttempt

/-- No entry has been allocated: only the root may carry data. -/
structure NsBlank (k : Kernel) (l : List NsAttempt) : Prop where
  shape : k.NsShape
  count : k.nsCount = 0
  root : k.nsRoot = if l = [] then none else some 0
  data : k.nsData = fun i => if i = 0 then stored l [] else (0, 0)
  done : ∀ x ∈ l, x.done

/-- The entries are those on the paths of the history and carry what it says. -/
structure NsBegun (k : Kernel) (l : List NsAttempt) (a : Bytes) : Prop where
  tree : NsTree k a
  ends : ∀ x ∈ l, x.done → ∃ m, follow k.nsEdge 0 x.tokens = some m
  data : ∀ ts m, follow k.nsEdge 0 ts = some m → k.nsData m = stored l ts
  nodes : ∀ ts m, follow k.nsEdge 0 ts = some m →
    (∃ x ∈ l, x.done ∧ canonical l x.tokens = canonical l ts) ∨
      ∃ x ∈ l, canonical l ts <+: canonical l x.tokens ∧ canonical l ts ≠ canonical l x.tokens

def NsRep (k : Kernel) (l : List NsAttempt) : Prop :=
  match firstToken l with
  | none => NsBlank k l
  | some a => NsBegun k l a

variable {k : Kernel} {l : List NsAttempt} {a name : Bytes} {handle owner : ℕ}

theorem nsRep_of_none (h : firstToken l = none) : NsRep k l ↔ NsBlank k l := by
  unfold NsRep
  rw [h]

theorem nsRep_of_first (h : firstToken l = some a) : NsRep k l ↔ NsBegun k l a := by
  unfold NsRep
  rw [h]

/-- The attempt that a call of `ipc_ns_insert` makes. -/
def nsAttempt (k : Kernel) (name : Bytes) (handle owner : ℕ) : NsAttempt where
  tokens := nsTokens name
  handle := handle
  owner := owner
  done := (k.ipcNsInsert name handle owner).1 = 0

/-- How an insert ends along the tokens of `x`. -/
def NsEnd (k k' : Kernel) (x : NsAttempt) : Prop :=
  (x.done = true ∧ ∃ e, follow k'.nsEdge 0 x.tokens = some e ∧
    k'.nsData = Function.update k.nsData e (x.handle, x.owner)) ∨
  (x.done = false ∧ follow k'.nsEdge 0 x.tokens = none ∧ k'.nsData = k.nsData)

theorem NsBegun.of_grown {k' : Kernel} {x : NsAttempt} {g : List Bytes → ℕ × ℕ}
    (hfirst : firstToken (l ++ [x]) = some a) (htree : NsTree k a)
    (hgrown : NsGrown k k' a x.tokens) (hend : NsEnd k k' x)
    (hends : ∀ y ∈ l, y.done → ∃ m, follow k.nsEdge 0 y.tokens = some m)
    (hdata : ∀ ts m, follow k.nsEdge 0 ts = some m → k.nsData m = g ts)
    (hzero : ∀ ts, follow k.nsEdge 0 ts = none → g ts = (0, 0))
    (hstored : ∀ ts, stored (l ++ [x]) ts =
      if x.done ∧ canonical (l ++ [x]) x.tokens = canonical (l ++ [x]) ts then (x.handle, x.owner)
      else g ts)
    (hnodes : ∀ ts m, follow k.nsEdge 0 ts = some m →
      (∃ y ∈ l, y.done ∧ canonical (l ++ [x]) y.tokens = canonical (l ++ [x]) ts) ∨
      (∃ y ∈ l, canonical (l ++ [x]) ts <+: canonical (l ++ [x]) y.tokens ∧
        canonical (l ++ [x]) ts ≠ canonical (l ++ [x]) y.tokens) ∨
      canonical (l ++ [x]) ts <+: canonical (l ++ [x]) x.tokens) :
    NsBegun k' (l ++ [x]) a := by
  have hclass : ∀ {ts us m}, follow k'.nsEdge 0 ts = some m → (follow k'.nsEdge 0 us = some m ↔
      canonical (l ++ [x]) ts = canonical (l ++ [x]) us) := by
    intro ts us m hts
    rw [hgrown.tree.tree.follow_eq_iff hts, canonical_of_first hfirst, canonical_of_first hfirst]
  have hold : ∀ ts m, follow k'.nsEdge 0 ts = some m → k.nsData m = g ts := by
    intro ts m hts
    rcases hgrown.paths ts m hts with hk | ⟨hm, -⟩
    · exact hdata ts m hk
    · cases hk : follow k.nsEdge 0 ts with
      | none => rw [hzero ts hk, htree.blank m hm]
      | some m' =>
        obtain rfl := Option.some.inj (hts.symm.trans (hgrown.sub.follow hk))
        exact hdata ts m hk
  refine ⟨hgrown.tree, fun y hy hdone => ?_, fun ts m hts => ?_, fun ts m hts => ?_⟩
  · rcases mem_append.mp hy with hy | hy
    · obtain ⟨m, hm⟩ := hends y hy hdone
      exact ⟨m, hgrown.sub.follow hm⟩
    · obtain rfl := mem_singleton.mp hy
      rcases hend with ⟨-, e, he, -⟩ | ⟨hfail, -⟩
      · exact ⟨e, he⟩
      · rw [hfail] at hdone
        cases hdone
  · rw [hstored]
    rcases hend with ⟨hdone, e, he, hnew⟩ | ⟨hfail, -, hsame⟩
    · by_cases hm : m = e
      · rw [if_pos ⟨hdone, (hclass he).mp (hm ▸ hts)⟩, hnew, hm, Function.update_self]
      · have hne : ¬ (x.done ∧ canonical (l ++ [x]) x.tokens = canonical (l ++ [x]) ts) :=
          fun hboth => hm (Option.some.inj (hts.symm.trans ((hclass he).mpr hboth.2)))
        rw [if_neg hne, hnew, Function.update_of_ne hm, hold ts m hts]
    · rw [if_neg (by simp [hfail]), hsame, hold ts m hts]
  · have hlast : canonical (l ++ [x]) ts <+: canonical (l ++ [x]) x.tokens →
        (∃ y ∈ l ++ [x], y.done ∧ canonical (l ++ [x]) y.tokens = canonical (l ++ [x]) ts) ∨
        ∃ y ∈ l ++ [x], canonical (l ++ [x]) ts <+: canonical (l ++ [x]) y.tokens ∧
          canonical (l ++ [x]) ts ≠ canonical (l ++ [x]) y.tokens := by
      intro hpre
      by_cases heq : canonical (l ++ [x]) ts = canonical (l ++ [x]) x.tokens
      · rcases hend with ⟨hdone, -⟩ | ⟨-, hnone, -⟩
        · exact .inl ⟨x, by simp, hdone, heq.symm⟩
        · rw [(hclass hts).mpr heq] at hnone
          cases hnone
      · exact .inr ⟨x, by simp, hpre, heq⟩
    rcases hgrown.paths ts m hts with hk | ⟨-, hpre⟩
    · rcases hnodes ts m hk with ⟨y, hy, hdone⟩ | ⟨y, hy, hproper⟩ | hpre
      · exact .inl ⟨y, by simp [hy], hdone⟩
      · exact .inr ⟨y, by simp [hy], hproper⟩
      · exact hlast hpre
    · rw [← canonical_of_first hfirst, ← canonical_of_first hfirst] at hpre
      exact hlast hpre

theorem NsBegun.insert (hfirst : firstToken l = some a) (h : NsBegun k l a) :
    NsBegun (k.ipcNsInsert name handle owner).2 (l ++ [k.nsAttempt name handle owner]) a := by
  have hins : k.ipcNsInsert name handle owner =
      nsInsertTokens handle owner k 0 (nsTokens name) := by
    unfold ipcNsInsert
    rw [h.tree.root]
  have hnil : follow k.nsEdge 0 [] = some 0 := rfl
  obtain ⟨hgrown, hend⟩ := nsInsertTokens_tree handle owner
    (fun t ht => isToken_of_mem_nsTokens ht) h.tree hnil
  rw [nil_append, ← hins] at hgrown hend
  have hsome : firstToken (l ++ [k.nsAttempt name handle owner]) = some a := by
    rw [firstToken_concat, hfirst]
    rfl
  have hcanon := fun ts => canonical_congr (hsome.trans hfirst.symm) ts
  refine .of_grown hsome h.tree hgrown ?_ h.ends h.data (fun ts hnone => ?_) (fun ts => ?_) ?_
  · rcases hend with ⟨hret, e, he, hdata⟩ | ⟨hret, hnone, hdata⟩
    · exact .inl ⟨decide_eq_true hret, e, he, hdata⟩
    · exact .inr ⟨decide_eq_false (by rw [hret]; decide), hnone, hdata⟩
  · refine stored_eq_zero fun x hx hdone heq => ?_
    obtain ⟨m, hm⟩ := h.ends x hx hdone
    rw [canonical_of_first hfirst, canonical_of_first hfirst] at heq
    rw [(h.tree.tree.follow_eq_iff hm).mpr heq] at hnone
    cases hnone
  · rw [stored_concat_of_first hfirst, hcanon, hcanon]
  · intro ts m hts
    simp only [hcanon]
    rcases h.nodes ts m hts with hdone | hproper
    · exact .inl hdone
    · exact .inr (.inl hproper)

end Kernel
end SageOS
