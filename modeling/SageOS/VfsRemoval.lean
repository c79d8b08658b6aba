import SageOS.Vfs

/-!
# Recursive removal

The removal of a path asks for its type, lists it if it is a directory, removes what is listed and
unlinks the path last; a failure anywhere ends it. The answers come from an arbitrary state
machine. Listings and unlinks are recorded. An entry whose path would be too long is passed over,
and its directory is unlinked all the same.
-/
namespace SageOS
open List
variable {σ : Type}

inductive RemovalEvent
  | listed (path : Bytes) (names : List Bytes)
  | unlinked (path : Bytes) (res : ℤ)
  deriving DecidableEq

open RemovalEvent

/-- The three operations that a removal uses: a result with the type, the number of entries with
their names, and a result. -/
structure TreeOps (σ : Type) where
  vfsStat : Bytes → σ → ℤ × VfsNodeType × σ
  vfsReaddir : Bytes → σ → ℤ × List Bytes × σ
  vfsUnlink : Bytes → σ → ℤ × σ

def childPath (path name : Bytes) : Bytes :=
  if path.getLast? = some slash then path ++ name else path ++ slash :: name

def IsDots (name : Bytes) : Prop := name = bytes "." ∨ name = bytes ".."

instance : DecidablePred IsDots := fun _ => instDecidableOr

/-- The path and the name fit into a path buffer. -/
def FitsBelow (path name : Bytes) : Prop := path.length + 1 + name.length < 256

instance (path : Bytes) : DecidablePred (FitsBelow path) := fun _ => Nat.decLt _ _

abbrev Removing (σ : Type) := σ × List RemovalEvent

def rmEntries (rm : Bytes → Removing σ → Option (ℤ × Removing σ)) (path : Bytes) :
    List Bytes → Removing σ → Option (ℤ × Removing σ)
  | [], w => some (0, w)
  | name :: names, w =>
    if IsDots name then rmEntries rm path names w
    else if FitsBelow path name then
      (rm (childPath path name) w).bind fun r =>
        if r.1 = 0 then rmEntries rm path names r.2 else some r
    else rmEntries rm path names w

namespace TreeOps
variable (ops : TreeOps σ)

def unlink (path : Bytes) (w : Removing σ) : ℤ × Removing σ :=
  let r := ops.vfsUnlink path w.1
  (r.1, r.2, w.2 ++ [unlinked path r.1])

def entries (path : Bytes) (s : σ) : List Bytes :=
  (ops.vfsReaddir path s).2.1.take (ops.vfsReaddir path s).1.toNat

def vfsRmRf : ℕ → Bytes → Removing σ → Option (ℤ × Removing σ)
  | 0, _, _ => none
  | n + 1, path, w =>
    let (res, type, s) := ops.vfsStat path w.1
    if res ≠ 0 then some (res, s, w.2)
    else if type = .directory then
      let (count, _, s') := ops.vfsReaddir path s
      if count < 0 then some (count, s', w.2)
      else (rmEntries (vfsRmRf n) path (ops.entries path s)
          (s', w.2 ++ [listed path (ops.entries path s)])).bind fun r =>
        if r.1 = 0 then some (ops.unlink path r.2) else some r
    else some (ops.unlink path (s, w.2))

/-- No listing has empty names or slashes in names. -/
def NamesOk : Prop := ∀ path s, ∀ name ∈ ops.entries path s, name ≠ [] ∧ slash ∉ name

end TreeOps

def Removable (path name : Bytes) : Prop := ¬ IsDots name ∧ FitsBelow path name

/-- The path itself or a path to which names have been added, none of them `.` or `..`. -/
inductive Below (path : Bytes) : Bytes → Prop
  | self : Below path path
  | child {p name : Bytes} (hp : Below path p) (hne : name ≠ []) (hslash : slash ∉ name)
      (hname : Removable p name) : Below path (childPath p name)

/-- When a directory is unlinked, the owed ones of its listed entries have been unlinked. -/
def PostOrder (owed : Bytes → Bytes → Prop) (t : List RemovalEvent) : Prop :=
  ∀ before path res after, t = before ++ unlinked path res :: after → ∀ names,
    listed path names ∈ before → ∀ name ∈ names, owed path name →
      unlinked (childPath path name) 0 ∈ before

/-- Nothing is left to do for any listing. -/
def Settled (owed : Bytes → Bytes → Prop) (t : List RemovalEvent) : Prop :=
  ∀ path names, listed path names ∈ t → ∀ name ∈ names, owed path name →
    unlinked (childPath path name) 0 ∈ t

section Paths
variable {path p q name : Bytes}

theorem length_childPath (h : name ≠ []) : path.length < (childPath path name).length := by
  have hpos := length_pos_iff.mpr h
  unfold childPath
  split_ifs
  · rw [length_append]
    omega
  · rw [length_append, length_cons]
    omega

theorem Below.trans (h : Below path p) (h' : Below p q) : Below path q := by
  induction h' with
  | self => exact h
  | child _ hne hslash hname ih => exact .child ih hne hslash hname

theorem Below.le_length (h : Below path q) : path.length ≤ q.length := by
  induction h with
  | self => exact le_rfl
  | child _ hne _ _ ih => exact ih.trans (length_childPath hne).le

theorem Below.ends (h : Below path q) : q = path ∨ q.getLast? ≠ some slash := by
  cases h with
  | self => exact .inl rfl
  | child hp hne hslash _ =>
    right
    intro hlast
    unfold childPath at hlast
    have hmem : ∀ l : Bytes, (l ++ _).getLast? = some slash → slash ∈ _ := fun l hl => by
      rw [getLast?_append_of_ne_nil l hne] at hl
      exact mem_of_getLast? hl
    split_ifs at hlast
    · exact hslash (hmem _ hlast)
    · rw [append_cons] at hlast
      exact hslash (hmem _ hlast)

theorem childPath_eq (path name : Bytes) : ∃ l : Bytes, childPath path name = l ++ slash :: name ∧
    (path = l ∨ path = l ++ [slash]) := by
  unfold childPath
  split_ifs with hlast
  · obtain ⟨l, rfl⟩ := getLast?_eq_some_iff.mp hlast
    exact ⟨l, by simp, .inr rfl⟩
  · exact ⟨path, rfl, .inl rfl⟩

theorem append_slash_inj {l l' : Bytes} {name' : Bytes} (hname : slash ∉ name)
    (hname' : slash ∉ name') (h : l ++ slash :: name = l' ++ slash :: name') :
    l = l' ∧ name = name' := by
  rcases append_eq_append_iff.mp h with ⟨a, rfl, ha⟩ | ⟨a, rfl, ha⟩ <;>
    cases a with
    | nil => simp_all
    | cons c a =>
      obtain ⟨-, rfl⟩ := List.cons.inj ha
      simp at hname hname'

theorem fitsBelow_of_below (hp : Below path p) (hne : name ≠ []) (hslash : slash ∉ name)
    (h : Below path (childPath p name)) : FitsBelow p name := by
  have hle := hp.le_length
  have hlt : p.length < (childPath p name).length := length_childPath hne
  generalize hq : childPath p name = q at h hlt
  cases h with
  | self => omega
  | @child p' name' hp' _ hslash' hname' =>
    obtain ⟨l, hl, hpl⟩ := childPath_eq p name
    obtain ⟨l', hl', hpl'⟩ := childPath_eq p' name'
    obtain ⟨rfl, rfl⟩ := append_slash_inj hslash hslash' (hl.symm.trans (hq.trans hl'))
    have hfits := hname'.2
    unfold FitsBelow at hfits ⊢
    have hle' := hp'.le_length
    rcases hpl with rfl | rfl
    · rcases hpl' with rfl | rfl
      · exact hfits
      · rw [length_append] at hfits
        omega
    · obtain rfl := hp.ends.resolve_right (by simp)
      rcases hpl' with rfl | rfl
      · omega
      · omega

end Paths

section Traces
variable {owed : Bytes → Bytes → Prop} {t t' : List RemovalEvent} {path : Bytes}
  {names : List Bytes}

theorem PostOrder.append (h : PostOrder owed t) (hs : Settled owed t) (h' : PostOrder owed t') :
    PostOrder owed (t ++ t') := by
  intro before p r after heq ns hns name hname howed
  rcases append_eq_append_iff.mp heq with ⟨mid, rfl, hmid⟩ | ⟨mid, rfl, hmid⟩
  · rcases mem_append.mp hns with hns | hns
    · exact mem_append_left _ (hs p ns hns name hname howed)
    · exact mem_append_right _ (h' mid p r after hmid ns hns name hname howed)
  · cases mid with
    | nil => exact append_nil before ▸ hs p ns (by simpa using hns) name hname howed
    | cons e mid =>
      obtain ⟨rfl, -⟩ := List.cons.inj hmid
      exact h before p r mid rfl ns hns name hname howed

theorem PostOrder.listed_cons (h : PostOrder owed t) (hnot : ∀ r, unlinked path r ∉ t) :
    PostOrder owed (listed path names :: t) := by
  intro before p r after heq ns hns name hname howed
  cases before with
  | nil => cases hns
  | cons e before =>
    obtain ⟨rfl, rfl⟩ := List.cons.inj heq
    rcases mem_cons.mp hns with hhead | hns
    · obtain ⟨rfl, rfl⟩ := RemovalEvent.listed.inj hhead
      exact absurd (by simp) (hnot r)
    · exact mem_cons_of_mem _ (h before p r after rfl ns hns name hname howed)

theorem postOrder_single (e : RemovalEvent) : PostOrder owed [e] := by
  intro before p r after heq ns hns
  cases before with
  | nil => cases hns
  | cons e before => simp at heq

theorem Settled.append (h : Settled owed t) (h' : Settled owed t') : Settled owed (t ++ t') := by
  intro p ns hns name hname howed
  rcases mem_append.mp hns with hns | hns
  · exact mem_append_left _ (h p ns hns name hname howed)
  · exact mem_append_right _ (h' p ns hns name hname howed)

/-- What the removal of a path records. -/
structure Visit (path : Bytes) (res : ℤ) (t : List RemovalEvent) : Prop where
  unlinks : ∀ q r, unlinked q r ∈ t → Below path q
  lists : ∀ p ns, listed p ns ∈ t → Below path p ∧ ∀ name ∈ ns, name ≠ [] ∧ slash ∉ name
  order : PostOrder Removable t
  done : res = 0 → Settled Removable t ∧ unlinked path 0 ∈ t

/-- What the removal of the entries of a directory records. -/
structure Entries (path : Bytes) (names : List Bytes) (res : ℤ) (t : List RemovalEvent) :
    Prop where
  unlinks : ∀ q r, unlinked q r ∈ t → Below path q ∧ path.length < q.length
  lists : ∀ p ns, listed p ns ∈ t → Below path p ∧ ∀ name ∈ ns, name ≠ [] ∧ slash ∉ name
  order : PostOrder Removable t
  done : res = 0 → Settled Removable t ∧
    ∀ name ∈ names, Removable path name → unlinked (childPath path name) 0 ∈ t

theorem rmEntries_of_not_removable {rm : Bytes → Removing σ → Option (ℤ × Removing σ)}
    {name : Bytes} (h : ¬ Removable path name) (w : Removing σ) :
    rmEntries rm path (name :: names) w = rmEntries rm path names w := by
  rw [rmEntries]
  by_cases hdots : IsDots name
  · exact if_pos hdots
  · rw [if_neg hdots, if_neg fun hfits => h ⟨hdots, hfits⟩]

theorem exists_rmEntries (rm : Bytes → Removing σ → Option (ℤ × Removing σ))
    (hrm : ∀ name, name ≠ [] → Removable path name → ∀ w : Removing σ,
      ∃ res s t, rm (childPath path name) w = some (res, s, w.2 ++ t) ∧
        Visit (childPath path name) res t)
    (hnames : ∀ name ∈ names, name ≠ [] ∧ slash ∉ name) (w : Removing σ) :
    ∃ res s t, rmEntries rm path names w = some (res, s, w.2 ++ t) ∧ Entries path names res t := by
  induction names generalizing w with
  | nil =>
    refine ⟨0, w.1, [], by rw [append_nil]; rfl, nofun, nofun, ?_, ?_⟩
    · intro before p r after heq
      simp at heq
    · exact fun _ => ⟨nofun, nofun⟩
  | cons name names ih =>
    obtain ⟨hne, hslash⟩ := hnames name mem_cons_self
    have hrest := fun n hn => hnames n (mem_cons_of_mem name hn)
    by_cases hrem : Removable path name
    · obtain ⟨res, s, t, hrun, hvisit⟩ := hrm name hne hrem w
      have hbelow : Below path (childPath path name) := .child .self hne hslash hrem
      have hstep : rmEntries rm path (name :: names) w =
          if res = 0 then rmEntries rm path names (s, w.2 ++ t)
          else some (res, s, w.2 ++ t) := by
        rw [rmEntries, if_neg hrem.1, if_pos hrem.2, hrun]
        rfl
      have hunlinks : ∀ q r, unlinked q r ∈ t → Below path q ∧ path.length < q.length :=
        fun q r hq => ⟨hbelow.trans (hvisit.unlinks q r hq),
          (length_childPath hne).trans_le (hvisit.unlinks q r hq).le_length⟩
      have hlists : ∀ p ns, listed p ns ∈ t →
          Below path p ∧ ∀ name ∈ ns, name ≠ [] ∧ slash ∉ name :=
        fun p ns hp => ⟨hbelow.trans (hvisit.lists p ns hp).1, (hvisit.lists p ns hp).2⟩
      by_cases hres : res = 0
      · obtain ⟨res', s', t', hrun', hent⟩ := ih hrest (s, w.2 ++ t)
        obtain ⟨hsettled, hself⟩ := hvisit.done hres
        refine ⟨res', s', t ++ t', ?_, ?_, ?_, hvisit.order.append hsettled hent.order, ?_⟩
        · rw [hstep, if_pos hres, hrun', append_assoc]
        · exact fun q r hq => (mem_append.mp hq).elim (hunlinks q r) (hent.unlinks q r)
        · exact fun p ns hp => (mem_append.mp hp).elim (hlists p ns) (hent.lists p ns)
        · intro hres'
          obtain ⟨hsettled', hall⟩ := hent.done hres'
          refine ⟨hsettled.append hsettled', fun n hn hn' => ?_⟩
          rcases mem_cons.mp hn with rfl | hn
          · exact mem_append_left _ hself
          · exact mem_append_right _ (hall n hn hn')
      · refine ⟨res, s, t, by rw [hstep, if_neg hres], hunlinks, hlists, hvisit.order, ?_⟩
        exact fun h => absurd h hres
    · obtain ⟨res, s, t, hrun, hent⟩ := ih hrest w
      refine ⟨res, s, t, by rw [rmEntries_of_not_removable hrem, hrun], hent.unlinks, hent.lists,
        hent.order, fun hres => ⟨(hent.done hres).1, fun n hn hn' => ?_⟩⟩
      rcases mem_cons.mp hn with rfl | hn
      · exact absurd hn' hrem
      · exact (hent.done hres).2 n hn hn'

variable {ops : TreeOps σ}

theorem visit_unlink (path : Bytes) (res : ℤ) : Visit path res [unlinked path res] where
  unlinks q r hq := by
    obtain ⟨rfl, -⟩ := RemovalEvent.unlinked.inj (mem_singleton.mp hq)
    exact .self
  lists := by simp
  order := postOrder_single _
  done hres := by
    subst hres
    exact ⟨by simp [Settled], mem_singleton_self _⟩

theorem visit_nil {res : ℤ} (hres : res ≠ 0) : Visit path res [] where
  unlinks := nofun
  lists := nofun
  order := by
    intro before p r after heq
    simp at heq
  done h := absurd h hres

theorem Entries.visit_of_failure {res : ℤ} (h : Entries path names res t)
    (hnames : ∀ name ∈ names, name ≠ [] ∧ slash ∉ name) (hres : res ≠ 0) :
    Visit path res (listed path names :: t) where
  unlinks q r hq := (h.unlinks q r (by simpa using hq)).1
  lists p ns hp := by
    rcases mem_cons.mp hp with hhead | hp
    · obtain ⟨rfl, rfl⟩ := RemovalEvent.listed.inj hhead
      exact ⟨.self, hnames⟩
    · exact h.lists p ns hp
  order := h.order.listed_cons fun r hr => (h.unlinks path r hr).2.ne rfl
  done hzero := absurd hzero hres

theorem Entries.visit (h : Entries path names 0 t)
    (hnames : ∀ name ∈ names, name ≠ [] ∧ slash ∉ name) (res : ℤ) :
    Visit path res (listed path names :: t ++ [unlinked path res]) := by
  obtain ⟨hdone, hall⟩ := h.done rfl
  have hself := visit_unlink path res
  have hsettled : Settled Removable (listed path names :: t) := by
    intro p ns hp name hname hrem
    rcases mem_cons.mp hp with hhead | hp
    · obtain ⟨rfl, rfl⟩ := RemovalEvent.listed.inj hhead
      exact mem_cons_of_mem _ (hall name hname hrem)
    · exact mem_cons_of_mem _ (hdone p ns hp name hname hrem)
  have hbefore : Visit path 1 (listed path names :: t) :=
    Entries.visit_of_failure ⟨h.unlinks, h.lists, h.order, nofun⟩ hnames one_ne_zero
  refine ⟨fun q r hq => ?_, fun p ns hp => ?_, hbefore.order.append hsettled hself.order,
    fun hres => ?_⟩
  · exact (mem_append.mp hq).elim (hbefore.unlinks q r) (hself.unlinks q r)
  · exact (mem_append.mp hp).elim (hbefore.lists p ns) (hself.lists p ns)
  · exact ⟨hsettled.append (hself.done hres).1, mem_append_right _ (hself.done hres).2⟩

/-- Every child has a longer path, and no path that is entered has more than 255 bytes. -/
theorem TreeOps.exists_vfsRmRf (hok : ops.NamesOk) {n : ℕ} (hn : 0 < n)
    (hlen : 257 ≤ n + path.length) (w : Removing σ) :
    ∃ res s t, ops.vfsRmRf n path w = some (res, s, w.2 ++ t) ∧ Visit path res t := by
  induction n generalizing path w with
  | zero => omega
  | succ n ih =>
    rw [TreeOps.vfsRmRf]
    rcases ops.vfsStat path w.1 with ⟨res, type, s⟩
    dsimp only
    by_cases hstat : res ≠ 0
    · exact ⟨res, s, [], by rw [if_pos hstat, append_nil], visit_nil hstat⟩
    rw [if_neg hstat]
    by_cases hdir : type = .directory
    · rw [if_pos hdir]
      have hnames := hok path s
      generalize ops.entries path s = names at hnames
      generalize (ops.vfsReaddir path s).1 = count
      generalize (ops.vfsReaddir path s).2.2 = s'
      by_cases hcount : count < 0
      · exact ⟨count, s', [], by rw [if_pos hcount, append_nil], visit_nil hcount.ne⟩
      rw [if_neg hcount]
      obtain ⟨res, s'', t, hrun, hent⟩ := exists_rmEntries (ops.vfsRmRf n)
        (fun name hne (hrem : Removable path name) w =>
          ih (by have := hrem.2; unfold FitsBelow at this; omega)
            (by have : path.length < _ := length_childPath hne; omega) w) hnames
        (s', w.2 ++ [listed path names])
      rw [hrun, Option.bind_some]
      by_cases hres : res = 0
      · subst hres
        refine ⟨(ops.vfsUnlink path s'').1, (ops.vfsUnlink path s'').2, _, ?_, hent.visit hnames _⟩
        simp [TreeOps.unlink]
      · refine ⟨res, s'', _, ?_, hent.visit_of_failure hnames hres⟩
        rw [if_neg hres]
        simp
    · rw [if_neg hdir]
      exact ⟨_, _, _, rfl, visit_unlink _ _⟩

end Traces

/-- Whatever is listed for a directory that is unlinked later fits into a path buffer. -/
def ListingsFit (t : List RemovalEvent) : Prop :=
  ∀ before path res after, t = before ++ unlinked path res :: after → ∀ names,
    listed path names ∈ before → ∀ name ∈ names, ¬ IsDots name → FitsBelow path name

/-- The removal ends, unlinks only the path and what is below it, and unlinks a directory after all
that is listed in it exactly if the paths of the listed entries are not too long. -/
theorem vfsRmRf_postOrder_iff (ops : TreeOps σ) (hok : ops.NamesOk) (path : Bytes) (s : σ) :
    ∃ res s' t, ops.vfsRmRf 257 path (s, []) = some (res, s', t) ∧
      (∀ q r, unlinked q r ∈ t → Below path q) ∧
      (PostOrder (fun _ name => ¬ IsDots name) t ↔ ListingsFit t) := by
  obtain ⟨res, s', t, hrun, hvisit⟩ := ops.exists_vfsRmRf hok (by decide)
    (Nat.le_add_right 257 path.length) (s, [])
  refine ⟨res, s', t, by rw [hrun, nil_append], hvisit.unlinks, ?_, ?_⟩
  · intro horder before p r after heq names hlisted name hname hdots
    have hmem : ∀ e ∈ before, e ∈ t := fun e he => heq ▸ mem_append_left _ he
    have hunlinked := horder before p r after heq names hlisted name hname hdots
    obtain ⟨hp, hns⟩ := hvisit.lists p names (hmem _ hlisted)
    exact fitsBelow_of_below hp (hns name hname).1 (hns name hname).2
      (hvisit.unlinks _ _ (hmem _ hunlinked))
  · intro hfit before p r after heq names hlisted name hname hdots
    exact hvisit.order before p r after heq names hlisted name hname
      ⟨hdots, hfit before p r after heq names hlisted name hname hdots⟩

def oneFileTree (dir name : Bytes) : TreeOps Unit where
  vfsStat path _ := (0, if path = dir then .directory else .file, ())
  vfsReaddir _ _ := (1, [name], ())
  vfsUnlink _ _ := (0, ())

theorem namesOk_oneFileTree {dir name : Bytes} (hne : name ≠ []) (hslash : slash ∉ name) :
    (oneFileTree dir name).NamesOk := by
  intro path s n hn
  rw [mem_singleton.mp (show n ∈ [name] from hn)]
  exact ⟨hne, hslash⟩

theorem removal_of_one_file : ∃ res s t,
    (oneFileTree (bytes "/d") (bytes "f")).vfsRmRf 257 (bytes "/d") ((), []) = some (res, s, t) ∧
      (∀ q r, unlinked q r ∈ t → Below (bytes "/d") q) ∧
      (PostOrder (fun _ name => ¬ IsDots name) t ↔ ListingsFit t) :=
  vfsRmRf_postOrder_iff (oneFileTree (bytes "/d") (bytes "f"))
    (namesOk_oneFileTree (by decide +kernel) (by decide +kernel)) (bytes "/d") ()

/-- A directory with a path of 200 bytes that holds a file with a name of 60 bytes is unlinked
before the file. -/
theorem long_entry_passed_over :
    let dir := slash :: replicate 199 0x64
    let name := replicate 60 0x66
    (oneFileTree dir name).NamesOk ∧ (oneFileTree dir name).vfsRmRf 257 dir ((), []) =
        some (0, (), [listed dir [name], unlinked dir 0]) ∧
      ¬ PostOrder (fun _ name => ¬ IsDots name) [listed dir [name], unlinked dir 0] := by
  refine ⟨namesOk_oneFileTree (by decide +kernel) (by decide +kernel), by decide +kernel, ?_⟩
  intro h
  have hmem := h [listed _ _] _ 0 [] rfl _ mem_cons_self _ mem_cons_self (by decide +kernel)
  simp at hmem

end SageOS
