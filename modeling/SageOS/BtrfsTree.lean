import SageOS.Btrfs
import SageOS.Fat32Bounded

/-!
# Descents in the BTRFS trees

A search returns exactly if its descent comes to a leaf, and then within as many nodes as there are
sectors at which a node can start. Every path can be resolved exactly if the descents to the file
system root and to all directories on the way come to leaves.
-/
namespace SageOS.BtrfsSuper
open Counted List
variable {g : BtrfsSuper} {d : Disk} {behind : Sector} {n : ℕ} {key : BtrfsKey} {root : ℕ}
variable (g d behind key) in
inductive Leaf : ℕ → BtrfsNode → Prop
  | leaf {logical : ℕ} (h : (g.nodeAt d behind logical).level = 0) :
      Leaf logical (g.nodeAt d behind logical)
  | child {logical : ℕ} {node : BtrfsNode} (h : 0 < (g.nodeAt d behind logical).level)
      (hnode : Leaf ((g.nodeAt d behind logical).child key) node) : Leaf logical node

theorem Leaf.unique {node node' : BtrfsNode} (h : Leaf g d behind key root node)
    (h' : Leaf g d behind key root node') : node = node' := by
  induction h with
  | leaf hzero =>
    cases h' with
    | leaf => rfl
    | child hpos => omega
  | child hpos _ ih =>
    cases h' with
    | leaf hzero => omega
    | child _ hnode => exact ih hnode

variable {node : BtrfsNode}

theorem yields_descend_succ : (g.descend d behind (n + 1) root key).Yields node ↔
      (g.nodeAt d behind root).level = 0 ∧ g.nodeAt d behind root = node ∨
      0 < (g.nodeAt d behind root).level ∧
        (g.descend d behind n ((g.nodeAt d behind root).child key) key).Yields node := by
  unfold descend
  rw [yields_loop_succ]
  have hread : ∀ {β : Type} {f : BtrfsNode → Counted β} {b : β},
      (g.readNode d behind root >>= f).Yields b ↔ (f (g.nodeAt d behind root)).Yields b := by
    intro β f b
    unfold readNode
    rw [yields_bind]
    simp
  simp only [hread]
  by_cases hpos : 0 < (g.nodeAt d behind root).level
  · simp [hpos, Nat.pos_iff_ne_zero.mp hpos]
  · simp [Nat.eq_zero_of_not_pos hpos]

theorem Leaf.of_descend (h : (g.descend d behind n root key).Yields node) :
    Leaf g d behind key root node := by
  induction n generalizing root with
  | zero => exact absurd h not_yields_loop_zero
  | succ n ih =>
    rcases yields_descend_succ.mp h with ⟨hzero, rfl⟩ | ⟨hpos, h⟩
    · exact .leaf hzero
    · exact .child hpos (ih h)

theorem Leaf.reaches (h : Leaf g d behind key root node) :
    Reaches (fun logical => (g.nodeAt d behind logical).child key)
      (fun logical => (g.nodeAt d behind logical).level = 0) root := by
  induction h with
  | leaf hzero => exact .of_stop hzero
  | child _ _ ih => exact .of_next ih

theorem nodeAt_congr {a b : ℕ} (h : g.lbaOf a = g.lbaOf b) :
    g.nodeAt d behind a = g.nodeAt d behind b := by
  unfold nodeAt
  rw [h]

theorem exists_descend_of_iterate {k : ℕ} (h : (g.nodeAt d behind
      ((fun logical => (g.nodeAt d behind logical).child key)^[k] root)).level = 0) :
    ∃ node, (g.descend d behind (k + 1) root key).Yields node := by
  induction k generalizing root with
  | zero => exact ⟨_, yields_descend_succ.mpr (.inl ⟨h, rfl⟩)⟩
  | succ k ih =>
    by_cases hpos : 0 < (g.nodeAt d behind root).level
    · obtain ⟨node, hnode⟩ := ih h
      exact ⟨node, yields_descend_succ.mpr (.inr ⟨hpos, hnode⟩)⟩
    · exact ⟨_, yields_descend_succ.mpr (.inl ⟨Nat.eq_zero_of_not_pos hpos, rfl⟩)⟩

/-- A descent that ends does so within as many nodes as there are sectors to start at. -/
theorem Leaf.yields (h : Leaf g d behind key root node) (hn : 2 ^ 32 < n) :
    (g.descend d behind n root key).Yields node := by
  obtain ⟨k, hk, hzero⟩ := h.reaches.within g.lbaOf (N := 2 ^ 32)
    (fun _ _ => Nat.mod_lt _ (by decide)) fun _ _ hab _ _ => by rw [nodeAt_congr hab]
  obtain ⟨node', hnode'⟩ := exists_descend_of_iterate hzero
  obtain rfl := h.unique (.of_descend hnode')
  exact hnode'.loop_mono (fun _ _ hr => hr) (by omega)

theorem yields_treeSearch {r : Option (BtrfsNode × ℕ)} :
    (g.treeSearch d behind n root key).Yields r ↔
      ∃ node, (g.descend d behind n root key).Yields node ∧
        (node.findItem key node.itemCount 0).map (fun i => (node, i)) = r := by
  unfold treeSearch
  rw [yields_bind]
  simp only [yields_pure]

def fsTreeKey : BtrfsKey := ⟨5, 132, 0⟩

/-- The root of the file system tree as a leaf of the root tree gives it. -/
def fsRootIn (node : BtrfsNode) : ℕ :=
  match node.findItem fsTreeKey node.itemCount 0 with
  | some i => le64 node (node.itemData i + 16)
  | none => 0

theorem yields_getFsRoot {r : ℕ} : (g.getFsRoot d behind n).Yields r ↔
    ∃ node, (g.descend d behind n g.root fsTreeKey).Yields node ∧ fsRootIn node = r := by
  unfold getFsRoot
  rw [yields_bind]
  simp only [yields_treeSearch]
  constructor
  · rintro ⟨_, ⟨node, hnode, rfl⟩, h⟩
    refine ⟨node, hnode, ?_⟩
    unfold fsRootIn
    unfold fsTreeKey at *
    cases hfind : node.findItem ⟨5, 132, 0⟩ node.itemCount 0 with
    | none => simpa [hfind] using h
    | some i => simpa [hfind] using h
  · rintro ⟨node, hnode, h⟩
    refine ⟨_, ⟨node, hnode, rfl⟩, ?_⟩
    unfold fsRootIn at h
    unfold fsTreeKey at *
    cases hfind : node.findItem ⟨5, 132, 0⟩ node.itemCount 0 with
    | none => simpa [hfind] using h
    | some i => simpa [hfind] using h

structure IsPart (part : Bytes) : Prop where
  ne_nil : part ≠ []
  slash_notMem : slash ∉ part
  nul_notMem : 0 ∉ part

variable (g d behind) in
inductive Inode (fsRoot : ℕ) : ℕ → Prop
  | root : Inode fsRoot 256
  | entry {objectid objectid' : ℕ} {node : BtrfsNode} {part : Bytes} (h : Inode fsRoot objectid)
      (hnode : Leaf g d behind ⟨objectid, 96, 0⟩ fsRoot node) (hpart : IsPart part)
      (hname : node.findName objectid part node.nritems 0 = some objectid') :
      Inode fsRoot objectid'

variable (g d behind) in
/-- The descents to the file system root and to all directories end. -/
def TreesEnd : Prop :=
  ∃ node, Leaf g d behind fsTreeKey g.root node ∧ (fsRootIn node ≠ 0 → ∀ objectid,
    Inode g d behind (fsRootIn node) objectid →
      ∃ leaf, Leaf g d behind ⟨objectid, 96, 0⟩ (fsRootIn node) leaf)

theorem isPart_of_mem {path part : Bytes} (hpath : 0 ∉ path) (h : part ∈ pathParts path) :
    IsPart part := by
  obtain ⟨hmem, hne⟩ := mem_filter.mp h
  refine ⟨by simpa using hne, fun hs => ?_, fun hz => hpath (Fat32Scan.of_mem_splitOnP hmem _ hz).1⟩
  simpa using (Fat32Scan.of_mem_splitOnP hmem _ hs).2

variable {parts : List Bytes}

theorem exists_resolveParts {fsRoot objectid : ℕ}
    (hall : ∀ o, Inode g d behind fsRoot o → ∃ leaf, Leaf g d behind ⟨o, 96, 0⟩ fsRoot leaf)
    (ho : Inode g d behind fsRoot objectid) (hparts : ∀ part ∈ parts, IsPart part)
    (hn : 2 ^ 32 < n) : ∃ r, (g.resolveParts d behind n fsRoot objectid parts).Yields r ∧
      (r ≠ 0 → Inode g d behind fsRoot r) := by
  induction parts generalizing objectid with
  | nil => exact ⟨objectid, .pure _, fun _ => ho⟩
  | cons part rest ih =>
    obtain ⟨leaf, hleaf⟩ := hall objectid ho
    apply (hleaf.yields hn).exists_bind_and
    cases hname : leaf.findName objectid part leaf.nritems 0 with
    | none => exact ⟨0, .pure _, fun h => absurd rfl h⟩
    | some objectid' =>
      exact ih (.entry ho hleaf (hparts part mem_cons_self) hname)
        fun p hp => hparts p (mem_cons_of_mem part hp)

theorem exists_resolvePath (h : TreesEnd g d behind) {path : Bytes} (hpath : 0 ∉ path)
    (hn : 2 ^ 32 < n) : ∃ r, (g.resolvePath d behind n path).Yields r ∧
      ∀ node, Leaf g d behind fsTreeKey g.root node → fsRootIn node ≠ 0 → r ≠ 0 →
        Inode g d behind (fsRootIn node) r := by
  obtain ⟨node, hnode, hall⟩ := h
  unfold resolvePath
  split_ifs
  · exact ⟨0, .pure _, fun _ _ _ hne => absurd rfl hne⟩
  · exact ⟨256, .pure _, fun _ _ _ _ => .root⟩
  have hfs : (g.getFsRoot d behind n).Yields (fsRootIn node) :=
    yields_getFsRoot.mpr ⟨node, hnode.yields hn, rfl⟩
  apply hfs.exists_bind_and
  split_ifs with hzero
  · exact ⟨0, .pure _, fun _ _ _ hne => absurd rfl hne⟩
  · obtain ⟨r, hr, hinode⟩ := exists_resolveParts (hall hzero) .root
      (fun _ hp => isPart_of_mem hpath hp) hn
    refine ⟨r, hr, fun node' hnode' _ hne => ?_⟩
    rw [hnode'.unique hnode]
    exact hinode hne

def pathOf (parts : List Bytes) : Bytes := slash :: parts.flatMap (slash :: ·)

theorem splitOnP_parts {part : Bytes} (hpart : slash ∉ part) (h : ∀ p ∈ parts, slash ∉ p) :
    (part ++ parts.flatMap (slash :: ·)).splitOnP (· == slash) = part :: parts := by
  have hfree : ∀ p : Bytes, slash ∉ p → ∀ x ∈ p, (x == slash) = false := by
    intro p hp x hx
    have hne : x ≠ slash := fun heq => hp (heq ▸ hx)
    simpa using hne
  induction parts generalizing part with
  | nil =>
    rw [flatMap_nil, append_nil]
    exact splitOnP_eq_singleton (hfree part hpart)
  | cons p parts ih =>
    rw [flatMap_cons, cons_append,
      splitOnP_append_cons_of_forall_mem (hfree part hpart) slash (by simp),
      ih (h p mem_cons_self) fun q hq => h q (mem_cons_of_mem p hq)]

theorem pathParts_pathOf (h : ∀ p ∈ parts, IsPart p) : pathParts (pathOf parts) = parts := by
  have hsplit : (pathOf parts).splitOnP (· == slash) = [] :: [] :: parts := by
    have hrest := splitOnP_parts (show slash ∉ ([] : Bytes) by simp) fun p hp =>
      (h p hp).slash_notMem
    rw [nil_append] at hrest
    rw [pathOf, splitOnP_cons_eq_if_modifyHead, if_pos (by simp), hrest]
  unfold pathParts
  rw [hsplit, filter_cons_of_neg (by simp), filter_cons_of_neg (by simp), filter_eq_self]
  intro p hp
  simpa using (h p hp).ne_nil

theorem Inode.exists_parts {fsRoot objectid : ℕ} (h : Inode g d behind fsRoot objectid) :
    ∃ parts : List Bytes, (∀ p ∈ parts, IsPart p) ∧ ∀ (tail : List Bytes) (n r : ℕ),
      (g.resolveParts d behind n fsRoot 256 (parts ++ tail)).Yields r →
        (g.resolveParts d behind n fsRoot objectid tail).Yields r := by
  induction h with
  | root => exact ⟨[], by simp, fun _ _ _ h => h⟩
  | entry _ho hnode hpart hname ih =>
    rename_i part
    obtain ⟨parts, hparts, hreach⟩ := ih
    refine ⟨parts ++ [part], ?_, fun tail n r h => ?_⟩
    · intro p hp
      rcases mem_append.mp hp with hp | hp
      · exact hparts p hp
      · rwa [mem_singleton.mp hp]
    · rw [append_assoc, singleton_append] at h
      obtain ⟨leaf, hleaf, h⟩ := yields_bind.mp (hreach _ n r h)
      rw [(Leaf.of_descend hleaf).unique hnode, hname] at h
      exact h

theorem nul_notMem_pathOf (h : ∀ p ∈ parts, IsPart p) : 0 ∉ pathOf parts := by
  unfold pathOf
  simp only [mem_cons, mem_flatMap, not_or, not_exists, not_and]
  exact ⟨by decide, fun p hp => ⟨by decide, (h p hp).nul_notMem⟩⟩

theorem of_resolvePath_pathOf {r : ℕ} (hparts : ∀ p ∈ parts, IsPart p)
    (hne : parts ≠ []) (h : (g.resolvePath d behind n (pathOf parts)).Yields r) :
    ∃ node, (g.descend d behind n g.root fsTreeKey).Yields node ∧ (fsRootIn node ≠ 0 →
      (g.resolveParts d behind n (fsRootIn node) 256 parts).Yields r) := by
  unfold resolvePath at h
  rw [if_neg (by simp [pathOf]), if_neg, yields_bind] at h
  · obtain ⟨fsRoot, hfs, h⟩ := h
    obtain ⟨node, hnode, rfl⟩ := yields_getFsRoot.mp hfs
    refine ⟨node, hnode, fun hroot => ?_⟩
    rwa [if_neg hroot, pathParts_pathOf hparts] at h
  · cases parts with
    | nil => exact absurd rfl hne
    | cons p parts => simp [pathOf]

theorem treesEnd_of_lookups (h : ∀ path : Bytes, 0 ∉ path →
    ∃ n r, (g.resolvePath d behind n path).Yields r) : TreesEnd g d behind := by
  have hx : IsPart [0x78] := ⟨by decide, by decide, by decide⟩
  have hone : ∀ p ∈ [([0x78] : Bytes)], IsPart p := by simpa using hx
  obtain ⟨n, r, hr⟩ := h (pathOf [[0x78]]) (nul_notMem_pathOf hone)
  obtain ⟨node, hnode, -⟩ := of_resolvePath_pathOf hone (by simp) hr
  have hleaf := Leaf.of_descend hnode
  refine ⟨node, hleaf, fun hroot objectid ho => ?_⟩
  obtain ⟨parts, hparts, hreach⟩ := ho.exists_parts
  have hall : ∀ p ∈ parts ++ [[0x78]], IsPart p := by
    intro p hp
    rcases mem_append.mp hp with hp | hp
    · exact hparts p hp
    · exact hone p hp
  obtain ⟨n', r', hr'⟩ := h _ (nul_notMem_pathOf hall)
  obtain ⟨node', hnode', hparts'⟩ := of_resolvePath_pathOf hall (by simp) hr'
  obtain rfl := (Leaf.of_descend hnode').unique hleaf
  obtain ⟨leaf, hyields, -⟩ := yields_bind.mp (hreach _ n' r' (hparts' hroot))
  exact ⟨leaf, .of_descend hyields⟩

end SageOS.BtrfsSuper
