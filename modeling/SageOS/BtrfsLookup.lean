import SageOS.BtrfsSearchTree

/-!
# Directories in the BTRFS tree

The entries of a directory are the items of its directory index, which may fill several leaves. A
lookup and a listing descend once, for a key before all of them, and scan the leaf at which they
arrive. They see the whole directory exactly if all its entries are in that leaf.
-/
namespace SageOS
open Counted List

abbrev BtrfsItem := BtrfsNode × ℕ

namespace BtrfsItem
variable (p : BtrfsItem)

def key : BtrfsKey := p.1.itemKey p.2

def location : ℕ := le64 p.1 (p.1.itemData p.2)

def name : Bytes :=
  (range (le16 p.1 (p.1.itemData p.2 + 27))).map fun j => p.1 (p.1.itemData p.2 + 30 + j)

def IsEntryOf (objectid : ℕ) : Prop := p.key.objectid = objectid ∧ p.key.type = 96

instance (objectid : ℕ) : DecidablePred (IsEntryOf · objectid) := fun _ => instDecidableAnd

/-- An entry as it is listed: the name is cut to 63 bytes. -/
def listed : VfsDirEntry where
  name := strncpy 64 p.name
  type := if p.1 (p.1.itemData p.2 + 29) = 2 then .directory else .file
  size := 0

end BtrfsItem

namespace BtrfsNode
variable (node : BtrfsNode)

def listNames (objectid maxEntries : ℕ) : ℕ → ℕ → List VfsDirEntry → List VfsDirEntry
  | 0, _, out => out
  | rounds + 1, i, out =>
    if maxEntries ≤ out.length then out
    else if (node.itemKey i).objectid = objectid ∧ (node.itemKey i).type = 96 then
      listNames objectid maxEntries rounds (i + 1) (out ++ [BtrfsItem.listed (node, i)])
    else if objectid < (node.itemKey i).objectid then out
    else listNames objectid maxEntries rounds (i + 1) out

def entriesFrom (objectid : ℕ) : ℕ → ℕ → List BtrfsItem
  | 0, _ => []
  | rounds + 1, i =>
    if (node.itemKey i).objectid = objectid ∧ (node.itemKey i).type = 96 then
      (node, i) :: entriesFrom objectid rounds (i + 1)
    else if objectid < (node.itemKey i).objectid then []
    else entriesFrom objectid rounds (i + 1)

variable {node} {objectid : ℕ}

theorem findName_eq (name : Bytes) (rounds i : ℕ) : node.findName objectid name rounds i =
    ((node.entriesFrom objectid rounds i).find? fun p => p.name = name).map (·.location) := by
  induction rounds generalizing i with
  | zero => rfl
  | succ rounds ih =>
    have hname : (le16 node (node.itemData i + 27) = name.length ∧
        (range name.length).map (fun j => node (node.itemData i + 30 + j)) = name) ↔
        BtrfsItem.name (node, i) = name := by
      unfold BtrfsItem.name
      constructor
      · rintro ⟨hlen, heq⟩
        rw [hlen, heq]
      · intro heq
        have hlen := congrArg List.length heq
        rw [length_map, length_range] at hlen
        exact ⟨hlen, hlen ▸ heq⟩
    rw [findName, entriesFrom]
    by_cases hentry : (node.itemKey i).objectid = objectid ∧ (node.itemKey i).type = 96
    · rw [if_pos hentry, if_pos hentry, find?_cons]
      by_cases heq : BtrfsItem.name (node, i) = name
      · rw [if_pos (hname.mpr heq), decide_eq_true heq]
        rfl
      · rw [if_neg fun h => heq (hname.mp h), decide_eq_false heq, ih]
    · rw [if_neg hentry, if_neg hentry]
      split_ifs
      · rfl
      · exact ih (i + 1)

theorem listNames_eq (maxEntries rounds i : ℕ) (out : List VfsDirEntry) :
    node.listNames objectid maxEntries rounds i out = out ++
      ((node.entriesFrom objectid rounds i).take (maxEntries - out.length)).map (·.listed) := by
  induction rounds generalizing i out with
  | zero => simp [listNames, entriesFrom]
  | succ rounds ih =>
    rw [listNames, entriesFrom]
    by_cases hfull : maxEntries ≤ out.length
    · rw [if_pos hfull, Nat.sub_eq_zero_of_le hfull]
      simp
    rw [if_neg hfull]
    by_cases hentry : (node.itemKey i).objectid = objectid ∧ (node.itemKey i).type = 96
    · rw [if_pos hentry, if_pos hentry, ih, length_append, length_singleton,
        append_assoc, show maxEntries - out.length = maxEntries - (out.length + 1) + 1 by omega]
      rfl
    · rw [if_neg hentry, if_neg hentry]
      split_ifs
      · simp
      · exact ih (i + 1) out

theorem entriesFrom_eq (h : node.Ordered) {rounds i : ℕ} (hi : i + rounds = node.nritems) :
    node.entriesFrom objectid rounds i =
      ((List.range' i rounds).map (node, ·)).filter (BtrfsItem.IsEntryOf · objectid) := by
  induction rounds generalizing i with
  | zero => rfl
  | succ rounds ih =>
    rw [entriesFrom, List.range'_succ, map_cons, filter_cons]
    by_cases hkey : (node.itemKey i).objectid = objectid ∧ (node.itemKey i).type = 96
    · have hentry : BtrfsItem.IsEntryOf (node, i) objectid := hkey
      rw [if_pos hkey, if_pos (decide_eq_true hentry), ih (by omega)]
    have hentry : ¬ BtrfsItem.IsEntryOf (node, i) objectid := hkey
    rw [if_neg hkey, if_neg fun h => hentry (of_decide_eq_true h)]
    split_ifs with hafter
    · symm
      rw [filter_eq_nil_iff]
      intro p hp hp'
      obtain ⟨j, hj, rfl⟩ := mem_map.mp hp
      rw [mem_range'_1] at hj
      have hbefore := BtrfsKey.before_iff.mp (h.sorted i j (by omega) (by omega))
      have heq : (node.itemKey j).objectid = objectid := (of_decide_eq_true hp').1
      omega
    · exact ih (by omega)

theorem entriesFrom_items (h : node.Ordered) : node.entriesFrom objectid node.nritems 0 =
    node.items.filter (BtrfsItem.IsEntryOf · objectid) := by
  rw [entriesFrom_eq h (Nat.zero_add _), ← range_eq_range']
  rfl

end BtrfsNode

namespace BtrfsSuper
variable (g : BtrfsSuper) (d : Disk) (behind : Sector) (fuel : ℕ)

def beReaddir (path : Bytes) (maxEntries : ℕ) : Counted (Except ℤ (List VfsDirEntry)) := do
  let objectid ← g.resolvePath d behind fuel path
  if objectid = 0 then pure (.error vfsENOENT)
  else
    let fsRoot ← g.getFsRoot d behind fuel
    if fsRoot = 0 then pure (.error vfsEio)
    else
      let node ← g.descend d behind fuel fsRoot ⟨objectid, 96, 0⟩
      pure (.ok (node.listNames objectid maxEntries node.nritems 0 []))

end BtrfsSuper

def entriesOf (items : List BtrfsItem) (objectid : ℕ) : List BtrfsItem :=
  items.filter (·.IsEntryOf objectid)

/-- From a directory along names each of which is an entry of the directory reached so far. -/
inductive Walks (items : List BtrfsItem) : ℕ → List Bytes → ℕ → Prop
  | nil {objectid : ℕ} : Walks items objectid [] objectid
  | cons {objectid objectid' : ℕ} {p : BtrfsItem} {names : List Bytes}
      (hp : p ∈ entriesOf items objectid) (h : Walks items p.location names objectid') :
      Walks items objectid (p.name :: names) objectid'

namespace BtrfsSuper
variable {g : BtrfsSuper} {d : Disk} {behind : Sector} {fsRoot objectid : ℕ}
  {items : List BtrfsItem}

variable (g d behind fsRoot items) in
/-- The entries of the directory are in the leaf at which the search for them arrives. -/
def InOneLeaf (objectid : ℕ) : Prop :=
  ∀ leaf, Leaf g d behind ⟨objectid, 96, 0⟩ fsRoot leaf →
    leaf.items.filter (BtrfsItem.IsEntryOf · objectid) = entriesOf items objectid

variable (g d behind fsRoot items) in
/-- A file system tree in which no directory has two entries of one name. -/
structure FsTree : Prop where
  rooted : ∃ leaf, Leaf g d behind fsTreeKey g.root leaf ∧ fsRootIn leaf = fsRoot
  ne_zero : fsRoot ≠ 0
  tree : SearchTree g d behind fsRoot items
  names : ∀ p ∈ items, ∀ q ∈ items, p.key.type = 96 → q.key.type = 96 →
    p.key.objectid = q.key.objectid → p.name = q.name → p = q
  parts : ∀ p ∈ items, p.key.type = 96 → IsPart p.name
  locations : ∀ p ∈ items, p.key.type = 96 → p.location ≠ 0

section
variable (h : FsTree g d behind fsRoot items)

include h

theorem FsTree.yields_getFsRoot {n : ℕ} (hn : 2 ^ 32 < n) :
    (g.getFsRoot d behind n).Yields fsRoot := by
  obtain ⟨leaf, hleaf, hroot⟩ := h.rooted
  exact BtrfsSuper.yields_getFsRoot.mpr ⟨leaf, hleaf.yields hn, hroot⟩

theorem FsTree.walks {names : List Bytes} {objectid' : ℕ}
    (ho : objectid ≠ 0) (hw : Walks items objectid names objectid') :
    objectid' ≠ 0 ∧ ∀ name ∈ names, IsPart name := by
  induction hw with
  | nil => exact ⟨ho, nofun⟩
  | cons hp _ ih =>
    obtain ⟨hmem, hentry⟩ := mem_filter.mp hp
    have htype := (of_decide_eq_true hentry).2
    obtain ⟨hne, hparts⟩ := ih (h.locations _ hmem htype)
    exact ⟨hne, forall_mem_cons.mpr ⟨h.parts _ hmem htype, hparts⟩⟩

theorem findName_iff {leaf : BtrfsNode} (hordered : leaf.Ordered)
    (hall : leaf.items.filter (BtrfsItem.IsEntryOf · objectid) = entriesOf items objectid)
    {name : Bytes} {objectid' : ℕ} :
    leaf.findName objectid name leaf.nritems 0 = some objectid' ↔
      ∃ p ∈ entriesOf items objectid, p.name = name ∧ p.location = objectid' := by
  rw [BtrfsNode.findName_eq, BtrfsNode.entriesFrom_items hordered, hall, Option.map_eq_some_iff]
  constructor
  · rintro ⟨p, hp, hloc⟩
    exact ⟨p, mem_of_find?_eq_some hp, by simpa using find?_some hp, hloc⟩
  · rintro ⟨p, hp, rfl, hloc⟩
    cases hq : (entriesOf items objectid).find? fun q => q.name = p.name with
    | none => simpa using find?_eq_none.mp hq p hp
    | some q =>
      obtain ⟨hpi, hpe⟩ := mem_filter.mp hp
      obtain ⟨hqi, hqe⟩ := mem_filter.mp (mem_of_find?_eq_some hq)
      have hpe := of_decide_eq_true hpe
      have hqe := of_decide_eq_true hqe
      have hname : q.name = p.name := by simpa using find?_some hq
      obtain rfl := h.names q hqi p hpi hqe.2 hpe.2 (hqe.1.trans hpe.1.symm) hname
      exact ⟨q, rfl, hloc⟩

theorem resolveParts_iff {n r : ℕ} (hn : 2 ^ 32 < n) (hr : r ≠ 0) {parts : List Bytes}
    (hall : ∀ names o, Walks items objectid names o → InOneLeaf g d behind fsRoot items o) :
    (g.resolveParts d behind n fsRoot objectid parts).Yields r ↔ Walks items objectid parts r := by
  induction parts generalizing objectid with
  | nil =>
    refine ⟨fun hn => yields_pure.mp hn ▸ .nil, fun hw => ?_⟩
    cases hw
    exact .pure _
  | cons part rest ih =>
    obtain ⟨leaf, hleaf, hordered, -⟩ := h.tree.exists_leaf ⟨objectid, 96, 0⟩
    have hiff : ∀ {o}, _ ↔ _ := @findName_iff _ _ _ _ objectid _ h leaf hordered
      (hall [] objectid .nil leaf hleaf) part
    rw [resolveParts, yields_bind]
    constructor
    · rintro ⟨node, hnode, hrest⟩
      rw [(Leaf.of_descend hnode).unique hleaf] at hrest
      cases hfind : leaf.findName objectid part leaf.nritems 0 with
      | none =>
        rw [hfind, yields_pure] at hrest
        exact absurd hrest.symm hr
      | some objectid' =>
        rw [hfind] at hrest
        obtain ⟨p, hp, rfl, rfl⟩ := hiff.mp hfind
        exact .cons hp ((ih fun names o hw => hall _ o (.cons hp hw)).mp hrest)
    · intro hw
      cases hw with
      | cons hp hw =>
        refine ⟨leaf, hleaf.yields hn, ?_⟩
        rw [hiff.mpr ⟨_, hp, rfl, rfl⟩]
        exact (ih fun names o hw => hall _ o (.cons hp hw)).mpr hw

theorem resolvePath_iff {n r : ℕ} (hn : 2 ^ 32 < n)
    (hr : r ≠ 0) {path : Bytes} (hpath : path.head? = some slash)
    (hall : ∀ names o, Walks items 256 names o → InOneLeaf g d behind fsRoot items o) :
    (g.resolvePath d behind n path).Yields r ↔ Walks items 256 (pathParts path) r := by
  rw [← resolveParts_iff h hn hr hall, resolvePath, if_neg (by simp [hpath])]
  by_cases hroot : path = [slash]
  · subst hroot
    rw [if_pos rfl]
    exact Iff.rfl
  · rw [if_neg hroot, yields_bind]
    constructor
    · rintro ⟨fsRoot', hfs, hrest⟩
      obtain rfl := hfs.unique (h.yields_getFsRoot hn)
      rwa [if_neg h.ne_zero] at hrest
    · intro hrest
      refine ⟨fsRoot, h.yields_getFsRoot hn, ?_⟩
      rwa [if_neg h.ne_zero]

theorem yields_beReaddir {n : ℕ} (hn : 2 ^ 32 < n)
    {path : Bytes} (hobj : objectid ≠ 0) (hpath : (g.resolvePath d behind n path).Yields objectid)
    {leaf : BtrfsNode} (hleaf : Leaf g d behind ⟨objectid, 96, 0⟩ fsRoot leaf)
    (hordered : leaf.Ordered) (maxEntries : ℕ) :
    (g.beReaddir d behind n path maxEntries).Yields (.ok
      (((leaf.items.filter (BtrfsItem.IsEntryOf · objectid)).take maxEntries).map
        BtrfsItem.listed)) := by
  refine yields_bind.mpr ⟨objectid, hpath, ?_⟩
  rw [if_neg hobj]
  refine yields_bind.mpr ⟨fsRoot, h.yields_getFsRoot hn, ?_⟩
  rw [if_neg h.ne_zero]
  refine yields_bind.mpr ⟨leaf, hleaf.yields hn, yields_pure.mpr ?_⟩
  rw [BtrfsNode.listNames_eq, BtrfsNode.entriesFrom_items hordered]
  rfl

end

variable (g d behind items) in
/-- Paths lead where their parts do, entry by entry, and listings show all entries. -/
structure LookupsComplete : Prop where
  resolve : ∀ n > 2 ^ 32, ∀ (path : Bytes) (r : ℕ), path.head? = some slash → r ≠ 0 →
    ((g.resolvePath d behind n path).Yields r ↔ Walks items 256 (pathParts path) r)
  list : ∀ n > 2 ^ 32, ∀ (path : Bytes) (objectid maxEntries : ℕ), path.head? = some slash →
    Walks items 256 (pathParts path) objectid →
      (g.beReaddir d behind n path maxEntries).Yields
        (.ok (((entriesOf items objectid).take maxEntries).map (·.listed)))

theorem lookups_complete_iff (g : BtrfsSuper) (d : Disk) (behind : Sector) (fsRoot : ℕ)
    (items : List BtrfsItem) (h : FsTree g d behind fsRoot items) :
    LookupsComplete g d behind items ↔ ∀ names objectid, Walks items 256 names objectid →
        InOneLeaf g d behind fsRoot items objectid := by
  constructor
  · intro hcomplete names objectid hw leaf hleaf
    obtain ⟨hobj, hparts⟩ := h.walks (by decide) hw
    obtain ⟨leaf', hleaf', hordered, hsub, -⟩ := h.tree.exists_leaf ⟨objectid, 96, 0⟩
    obtain rfl := hleaf.unique hleaf'
    have hw' : Walks items 256 (pathParts (pathOf names)) objectid := by
      rwa [pathParts_pathOf hparts]
    have hn : 2 ^ 32 < 2 ^ 32 + 1 := by decide
    have hpath := (hcomplete.resolve _ hn (pathOf names) objectid rfl hobj).mpr hw'
    have hlists := (hcomplete.list _ hn (pathOf names) objectid
      (entriesOf items objectid).length rfl hw').unique
        (yields_beReaddir h hn hobj hpath hleaf hordered _)
    have hlength := congrArg List.length (Except.ok.inj hlists)
    have hsub' : (leaf.items.filter (BtrfsItem.IsEntryOf · objectid)).Sublist
        (entriesOf items objectid) := hsub.filter _
    have hle := hsub'.length_le
    rw [length_map, length_map, take_length, length_take] at hlength
    exact hsub'.eq_of_length (by omega)
  · intro hall
    refine ⟨fun n hn path r hpath hr => resolvePath_iff h hn hr hpath hall,
      fun n hn path objectid maxEntries hpath hw => ?_⟩
    obtain ⟨hobj, -⟩ := h.walks (by decide) hw
    obtain ⟨leaf, hleaf, hordered, -⟩ := h.tree.exists_leaf ⟨objectid, 96, 0⟩
    have hresolve := (resolvePath_iff h hn hobj hpath hall).mpr hw
    rw [← hall _ _ hw leaf hleaf]
    exact yields_beReaddir h hn hobj hresolve hleaf hordered maxEntries

section Example

/-- Nodes of one sector, at the addresses where they are stored. -/
def plainSuper : BtrfsSuper where
  root := 0
  nodesize := 512
  sysChunkArraySize := 0
  sysChunkArray := fun _ => 0

/-- A disk with these nodes, each given by its bytes other than zero. -/
def plainDisk (nodes : List (List (ℕ × UInt8))) : Disk := fun lba i =>
  ((nodes.getD (lba - btrfsPartitionStart) []).lookup i).getD 0

/-- The leaf of the root tree, which names the tree at 512. -/
def rootLeaf : List (ℕ × UInt8) := [(76, 1), (81, 5), (89, 132), (118, 2)]

def inodeLeaf : List (ℕ × UInt8) := [(76, 1), (82, 1), (89, 1)]

def entryLeaf : List (ℕ × UInt8) :=
  [(76, 1), (82, 1), (89, 96), (90, 2), (98, 100), (201, 1), (202, 1), (228, 1), (230, 1),
    (231, 0x61)]

def laterLeaf : List (ℕ × UInt8) := [(76, 1), (81, 1), (82, 1), (89, 1)]

def innerNode : List (ℕ × UInt8) :=
  [(64, 1), (76, 2), (82, 1), (89, 1), (99, 4), (115, 1), (122, 96), (123, 2), (132, 6)]

def laterInnerNode : List (ℕ × UInt8) :=
  [(64, 1), (76, 2), (82, 1), (89, 96), (90, 2), (99, 4), (114, 1), (115, 1), (122, 1), (132, 6)]

/-- A tree in which the entry begins the second leaf, and one in which it stands in the first. -/
def twoLeavesDisk : Disk := plainDisk [rootLeaf, innerNode, inodeLeaf, entryLeaf]

def entryFirstDisk : Disk := plainDisk [rootLeaf, laterInnerNode, entryLeaf, laterLeaf]

theorem searchTree_of_one_item {d : Disk} {logical : ℕ}
    (hlevel : (plainSuper.nodeAt d (fun _ => 0) logical).level = 0)
    (hone : (plainSuper.nodeAt d (fun _ => 0) logical).nritems = 1) :
    SearchTree plainSuper d (fun _ => 0) logical
      [(plainSuper.nodeAt d (fun _ => 0) logical, 0)] := by
  have hitems : (plainSuper.nodeAt d (fun _ => 0) logical).items =
      [(plainSuper.nodeAt d (fun _ => 0) logical, 0)] := by
    unfold BtrfsNode.items
    rw [hone]
    rfl
  rw [← hitems]
  exact .leaf hlevel ⟨by omega, fun i j hij hj => by omega⟩

/-- The node at an address of such a disk. -/
abbrev node (d : Disk) (logical : ℕ) : BtrfsNode := plainSuper.nodeAt d (fun _ => 0) logical

abbrev twoItems (d : Disk) : List BtrfsItem := [(node d 1024, 0), (node d 1536, 0)]

/-- A tree with one directory entry. -/
theorem fsTree_of_entry {d : Disk} {items : List BtrfsItem} {e : BtrfsItem}
    (hlevel : (node d 0).level = 0) (hroot : fsRootIn (node d 0) = 512)
    (htree : SearchTree plainSuper d (fun _ => 0) 512 items)
    (honly : ∀ p ∈ items, p.key.type = 96 → p = e) (hpart : IsPart e.name)
    (hlocation : e.location ≠ 0) : FsTree plainSuper d (fun _ => 0) 512 items where
  rooted := ⟨_, .leaf hlevel, hroot⟩
  ne_zero := by decide
  tree := htree
  names p hp q hq hpt hqt _ _ := (honly p hp hpt).trans (honly q hq hqt).symm
  parts p hp hpt := honly p hp hpt ▸ hpart
  locations p hp hpt := honly p hp hpt ▸ hlocation

theorem forall_of_pair {α : Type} {x y : α} {P : ℕ → α → Prop} (hx : P 0 x) (hy : P 1 y) :
    ∀ i a, [x, y][i]? = some a → P i a := by
  intro i a h
  rcases i with _ | _ | i
  · exact Option.some.inj h ▸ hx
  · exact Option.some.inj h ▸ hy
  · cases h

theorem searchTree_two {d : Disk} (hd : d = twoLeavesDisk ∨ d = entryFirstDisk) :
    SearchTree plainSuper d (fun _ => 0) 512 (twoItems d) := by
  have hleaf : ∀ i logical, (node d 512).blockptr i = logical → (node d logical).level = 0 →
      (node d logical).nritems = 1 →
      SearchTree plainSuper d (fun _ => 0) ((node d 512).blockptr i) [(node d logical, 0)] := by
    rintro i _ rfl hlevel hone
    exact searchTree_of_one_item hlevel hone
  change SearchTree plainSuper d (fun _ => 0) 512
    (List.flatten [[(node d 1024, 0)], [(node d 1536, 0)]])
  rcases hd with rfl | rfl
  all_goals
    refine .node (by decide +kernel) (by decide +kernel) (by decide +kernel) (by simp) ?_
      (forall_of_pair (hleaf 0 1024 ?_ ?_ ?_) (hleaf 1 1536 ?_ ?_ ?_))
      (forall_of_pair ?_ ?_) (forall_of_pair (fun _ => ?_) fun hlt => absurd hlt (by simp))
    · intro i j hij hj
      obtain ⟨rfl, rfl⟩ : i = 0 ∧ j = 1 := by
        simp only [length_cons, length_nil] at hj
        omega
      rw [BtrfsKey.before_iff]
      decide +kernel
    any_goals decide +kernel
    all_goals
      rintro p hp
      rw [mem_singleton.mp hp, BtrfsKey.before_iff]
      decide +kernel

theorem fsTree_entryFirstDisk :
    FsTree plainSuper entryFirstDisk (fun _ => 0) 512 (twoItems entryFirstDisk) := by
  refine fsTree_of_entry (e := (node entryFirstDisk 1024, 0)) ?_ ?_ (searchTree_two (.inr rfl))
    (fun p hp hpt => ?_) ⟨?_, ?_, ?_⟩ ?_
  case refine_3 =>
    rcases mem_cons.mp hp with rfl | hp
    · rfl
    · exact absurd (mem_singleton.mp hp ▸ hpt) (by decide +kernel)
  all_goals decide +kernel

/-- The only entry belongs to the root directory, and its search arrives at the first leaf. -/
theorem lookups_complete_in_first_leaf : LookupsComplete plainSuper entryFirstDisk (fun _ => 0)
    [(plainSuper.nodeAt entryFirstDisk (fun _ => 0) 1024, 0),
      (plainSuper.nodeAt entryFirstDisk (fun _ => 0) 1536, 0)] := by
  refine (lookups_complete_iff plainSuper entryFirstDisk (fun _ => 0) 512 _
    fsTree_entryFirstDisk).mpr fun names objectid _ leaf hleaf => ?_
  have hsecond : (node entryFirstDisk 1536).itemKey 0 = ⟨257, 1, 0⟩ := by decide +kernel
  have hkey : (node entryFirstDisk 1024).itemKey 0 = ⟨256, 96, 2⟩ := by decide +kernel
  by_cases hroot : objectid = 256
  · have hchild : (node entryFirstDisk 512).child ⟨256, 96, 0⟩ = 1024 := by decide +kernel
    have hfirst : leaf = node entryFirstDisk 1024 := by
      rw [hroot] at hleaf
      refine hleaf.unique (.child (by decide +kernel) ?_)
      rw [hchild]
      exact .leaf (by decide +kernel)
    have hone : (node entryFirstDisk 1024).nritems = 1 := by decide +kernel
    rw [hfirst, hroot, BtrfsNode.items, hone]
    unfold entriesOf
    simp [BtrfsItem.IsEntryOf, BtrfsItem.key, hkey, hsecond, range_succ]
  · have hnone : entriesOf (twoItems entryFirstDisk) objectid = [] := by
      unfold entriesOf
      simp [BtrfsItem.IsEntryOf, BtrfsItem.key, hkey, hsecond, Ne.symm hroot]
    obtain ⟨leaf', hleaf', -, hsub, -⟩ :=
      fsTree_entryFirstDisk.tree.exists_leaf ⟨objectid, 96, 0⟩
    obtain rfl := hleaf.unique hleaf'
    rw [hnone]
    exact sublist_nil.mp (hnone ▸ hsub.filter _)

theorem fsTree_twoLeavesDisk : (node twoLeavesDisk 1536).itemKey 0 = ⟨256, 96, 2⟩ ∧
    FsTree plainSuper twoLeavesDisk (fun _ => 0) 512 (twoItems twoLeavesDisk) := by
  refine ⟨?_, fsTree_of_entry (e := (node twoLeavesDisk 1536, 0)) ?_ ?_ (searchTree_two (.inl rfl))
    (fun p hp hpt => ?_) ⟨?_, ?_, ?_⟩ ?_⟩
  case refine_4 =>
    rcases mem_cons.mp hp with rfl | hp
    · exact absurd hpt (by decide +kernel)
    · exact mem_singleton.mp hp
  all_goals decide +kernel

theorem search_in_twoLeavesDisk : SearchTree plainSuper twoLeavesDisk (fun _ => 0) 512
    [(plainSuper.nodeAt twoLeavesDisk (fun _ => 0) 1024, 0),
      (plainSuper.nodeAt twoLeavesDisk (fun _ => 0) 1536, 0)] ∧
    ∃ r, (plainSuper.treeSearch twoLeavesDisk (fun _ => 0) (2 ^ 32 + 1) 512 ⟨256, 96, 2⟩).Yields r ∧
      r ≠ none := by
  obtain ⟨r, hr, hexact⟩ := treeSearch_exact plainSuper twoLeavesDisk (fun _ => 0) 512 _
    (searchTree_two (.inl rfl)) ⟨256, 96, 2⟩ (2 ^ 32 + 1) (by decide)
  refine ⟨searchTree_two (.inl rfl), r, hr, ?_⟩
  rw [(hexact (plainSuper.nodeAt twoLeavesDisk (fun _ => 0) 1536) 0).mpr
    ⟨by simp, fsTree_twoLeavesDisk.1⟩]
  exact Option.some_ne_none _

/-- The entry begins the second leaf, and the search for it arrives at the first one. -/
theorem entry_in_second_leaf_not_found :
    let items := [(plainSuper.nodeAt twoLeavesDisk (fun _ => 0) 1024, 0),
      (plainSuper.nodeAt twoLeavesDisk (fun _ => 0) 1536, 0)]
    FsTree plainSuper twoLeavesDisk (fun _ => 0) 512 items ∧
      (entriesOf items 256).map (·.name) = [bytes "a"] ∧
      (plainSuper.beReaddir twoLeavesDisk (fun _ => 0) (2 ^ 32 + 1) [slash] 64).Yields (.ok []) ∧
      ¬ LookupsComplete plainSuper twoLeavesDisk (fun _ => 0) items := by
  intro items
  have htree : FsTree plainSuper twoLeavesDisk (fun _ => 0) 512 items := fsTree_twoLeavesDisk.2
  have hentries : (entriesOf items 256).map (·.name) = [bytes "a"] := by
    unfold items
    decide +kernel
  obtain ⟨leaf, hleaf, hordered, -⟩ := htree.tree.exists_leaf ⟨256, 96, 0⟩
  have hfirst : leaf = plainSuper.nodeAt twoLeavesDisk (fun _ => 0) 1024 := by
    refine hleaf.unique (.child (by decide +kernel) ?_)
    rw [show (plainSuper.nodeAt twoLeavesDisk (fun _ => 0) 512).child ⟨256, 96, 0⟩ = 1024 by
      decide +kernel]
    exact .leaf (by decide +kernel)
  have hempty : leaf.items.filter (BtrfsItem.IsEntryOf · 256) = [] := by
    rw [hfirst, filter_eq_nil_iff]
    decide +kernel
  have hroot : (plainSuper.resolvePath twoLeavesDisk (fun _ => 0) (2 ^ 32 + 1) [slash]).Yields
      256 := .pure _
  have hlist := yields_beReaddir htree (by decide) (by decide) hroot hleaf hordered 64
  rw [hempty] at hlist
  refine ⟨htree, hentries, hlist, fun h => ?_⟩
  have heq := (h.list (2 ^ 32 + 1) (by decide) [slash] 256 64 rfl .nil).unique hlist
  have hlen := congrArg List.length hentries
  have hlen' := congrArg List.length (Except.ok.inj heq)
  rw [length_map] at hlen hlen'
  simp only [take_nil, map_nil, length_nil, length_take] at hlen'
  rw [hlen] at hlen'
  simp at hlen'

end Example
end BtrfsSuper
end SageOS
