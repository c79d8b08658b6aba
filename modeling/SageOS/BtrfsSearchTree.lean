import SageOS.BtrfsTree

/-!
# Ordered BTRFS trees

A tree is well formed if the keys in each node are sorted, the keys below a child are not before the
key of that child and before the key of the next one, and the levels go down to 0 at the leaves. The
descent for a key in such a tree ends in one of its leaves, and the item with that key, if there is
one, is in that leaf, so that a search returns it.
-/
namespace SageOS
open Counted List

def BtrfsKey.Before (a b : BtrfsKey) : Prop := btrfsCompareKeys a b < 0

theorem BtrfsKey.before_iff {a b : BtrfsKey} : a.Before b ↔
    a.objectid < b.objectid ∨ a.objectid = b.objectid ∧
      (a.type < b.type ∨ a.type = b.type ∧ a.offset < b.offset) := by
  unfold BtrfsKey.Before btrfsCompareKeys
  split_ifs <;> omega

theorem btrfsCompareKeys_eq_zero {a b : BtrfsKey} : btrfsCompareKeys a b = 0 ↔ b = a := by
  obtain ⟨o', t', f'⟩ := b
  unfold btrfsCompareKeys
  rw [BtrfsKey.mk.injEq]
  dsimp only
  split_ifs <;> simp <;> omega

namespace BtrfsNode
variable (node : BtrfsNode)

def items : List (BtrfsNode × ℕ) := (range node.nritems).map (node, ·)

structure Ordered : Prop where
  count_lt : node.nritems < 2 ^ 31
  sorted : ∀ i j, i < j → j < node.nritems → (node.itemKey i).Before (node.itemKey j)

variable {node}

theorem itemCount_of_lt (h : node.nritems < 2 ^ 31) : node.itemCount = node.nritems := if_pos h

variable {key : BtrfsKey}

theorem childSlot_spec (key : BtrfsKey) (rounds slot : ℕ) :
    slot ≤ node.childSlot key rounds slot ∧ node.childSlot key rounds slot ≤ slot + rounds ∧
      (∀ i, slot < i → i ≤ node.childSlot key rounds slot → ¬ key.Before (node.ptrKey i)) ∧
      (node.childSlot key rounds slot < slot + rounds →
        key.Before (node.ptrKey (node.childSlot key rounds slot + 1))) := by
  induction rounds generalizing slot with
  | zero => exact ⟨le_rfl, le_rfl, fun i h h' => absurd h' (by simp [childSlot]; omega),
      fun h => absurd h (by simp [childSlot])⟩
  | succ rounds ih =>
    rw [childSlot]
    by_cases hcmp : btrfsCompareKeys key (node.ptrKey (slot + 1)) < 0
    · rw [if_pos hcmp]
      exact ⟨le_rfl, by omega, fun i h h' => by omega, fun _ => hcmp⟩
    · rw [if_neg hcmp]
      obtain ⟨hlo, hhi, hpassed, hnext⟩ := ih (slot + 1)
      refine ⟨by omega, by omega, fun i h h' => ?_, fun h => hnext (by omega)⟩
      by_cases heq : i = slot + 1
      · exact heq ▸ hcmp
      · exact hpassed i (by omega) h'

theorem findItem_eq_some (h : node.Ordered) {rounds i j : ℕ} (hi : i + rounds = node.nritems) :
    node.findItem key rounds i = some j ↔ i ≤ j ∧ j < node.nritems ∧ node.itemKey j = key := by
  induction rounds generalizing i with
  | zero =>
    exact ⟨nofun, fun hj => by omega⟩
  | succ rounds ih =>
    -- A later item has a later key than item `i`.
    have hlater : i < j → j < node.nritems → (node.itemKey i).Before (node.itemKey j) :=
      h.sorted i j
    rw [findItem]
    split_ifs with hzero hbefore
    · rw [Option.some.injEq]
      have hkey := btrfsCompareKeys_eq_zero.mp hzero
      refine ⟨fun hij => hij ▸ ⟨le_rfl, by omega, hkey⟩, fun ⟨hle, hlt, hj⟩ => ?_⟩
      by_contra hne
      have hij := hlater (by omega) hlt
      rw [hkey, hj, BtrfsKey.before_iff] at hij
      omega
    · refine ⟨nofun, fun ⟨hle, hlt, hj⟩ => ?_⟩
      rcases hle.eq_or_lt with rfl | hlt'
      · exact absurd (btrfsCompareKeys_eq_zero.mpr hj) hzero
      · have hij := BtrfsKey.before_iff.mp (hlater hlt' hlt)
        have hki := BtrfsKey.before_iff.mp hbefore
        rw [hj] at hij
        omega
    · rw [ih (by omega)]
      refine and_congr_left fun ⟨hlt, hj⟩ => ⟨fun hle => by omega, fun hle => ?_⟩
      have hne : i ≠ j := fun hij => hzero (btrfsCompareKeys_eq_zero.mpr (hij ▸ hj))
      omega

end BtrfsNode

namespace BtrfsSuper
variable (g : BtrfsSuper) (d : Disk) (behind : Sector)

/-- A well-formed tree from a node on, with its items in order. -/
inductive SearchTree : ℕ → List (BtrfsNode × ℕ) → Prop
  | leaf {logical : ℕ} (hlevel : (g.nodeAt d behind logical).level = 0)
      (hordered : (g.nodeAt d behind logical).Ordered) :
      SearchTree logical (g.nodeAt d behind logical).items
  | node {logical : ℕ} {below : List (List (BtrfsNode × ℕ))}
      (hlevel : 0 < (g.nodeAt d behind logical).level)
      (hcount : (g.nodeAt d behind logical).nritems < 2 ^ 31)
      (hlength : below.length = (g.nodeAt d behind logical).nritems) (hne : below ≠ [])
      (hsorted : ∀ i j, i < j → j < below.length →
        ((g.nodeAt d behind logical).ptrKey i).Before ((g.nodeAt d behind logical).ptrKey j))
      (hchild : ∀ i items, below[i]? = some items →
        SearchTree ((g.nodeAt d behind logical).blockptr i) items)
      (hlow : ∀ i items, below[i]? = some items → ∀ p : BtrfsNode × ℕ, p ∈ items →
        ¬ (p.1.itemKey p.2).Before ((g.nodeAt d behind logical).ptrKey i))
      (hhigh : ∀ i items, below[i]? = some items → i + 1 < below.length →
        ∀ p : BtrfsNode × ℕ, p ∈ items →
          (p.1.itemKey p.2).Before ((g.nodeAt d behind logical).ptrKey (i + 1))) :
      SearchTree logical below.flatten

variable {g d behind} {root : ℕ} {items : List (BtrfsNode × ℕ)}

/-- The descent for a key ends in a leaf of the tree, and no other leaf has an item with the key. -/
theorem SearchTree.exists_leaf (h : SearchTree g d behind root items) (key : BtrfsKey) :
    ∃ leaf, Leaf g d behind key root leaf ∧ leaf.Ordered ∧ leaf.items.Sublist items ∧
      ∀ p ∈ items, p.1.itemKey p.2 = key → p ∈ leaf.items := by
  induction h with
  | leaf hlevel hordered => exact ⟨_, .leaf hlevel, hordered, .refl _, fun p hp _ => hp⟩
  | @node logical below hlevel hcount hlength hne hsorted hchild hlow hhigh ih =>
    have hpos := length_pos_iff.mpr hne
    obtain ⟨-, hle, hpassed, hnext⟩ := BtrfsNode.childSlot_spec key
      ((g.nodeAt d behind logical).itemCount - 1) 0
    generalize hslot : (g.nodeAt d behind logical).childSlot key
      ((g.nodeAt d behind logical).itemCount - 1) 0 = slot at hle hpassed hnext
    rw [BtrfsNode.itemCount_of_lt hcount] at hle hnext hslot
    have hlt : slot < below.length := by omega
    have hget : below[slot]? = some below[slot] := getElem?_eq_getElem hlt
    obtain ⟨leaf, hleaf, hordered, hsub, hkey⟩ := ih slot below[slot] hget
    refine ⟨leaf, .child hlevel ?_, hordered, hsub.trans (sublist_flatten_of_mem
      (getElem_mem hlt)), fun p hp heq => hkey p ?_ heq⟩
    · unfold BtrfsNode.child
      rwa [BtrfsNode.itemCount_of_lt hcount, hslot]
    · obtain ⟨c, hc, hpc⟩ := mem_flatten.mp hp
      obtain ⟨i, hi, rfl⟩ := getElem_of_mem hc
      have hgeti : below[i]? = some below[i] := getElem?_eq_getElem hi
      rcases Nat.lt_trichotomy i slot with hlt' | rfl | hgt
      · have hbefore := hhigh i _ hgeti (by omega) p hpc
        rw [heq] at hbefore
        have hnot := hpassed slot (by omega) le_rfl
        by_cases hnext' : i + 1 = slot
        · exact absurd (hnext' ▸ hbefore) hnot
        · have hsep := hsorted (i + 1) slot (by omega) hlt
          rw [BtrfsKey.before_iff] at hbefore hsep hnot
          omega
      · exact hpc
      · have hafter := hlow i _ hgeti p hpc
        rw [heq] at hafter
        have hbefore := hnext (by omega)
        by_cases hnext' : i = slot + 1
        · exact absurd (hnext' ▸ hbefore) hafter
        · have hsep := hsorted (slot + 1) i (by omega) hi
          rw [BtrfsKey.before_iff] at hbefore hsep hafter
          omega

theorem treeSearch_exact (g : BtrfsSuper) (d : Disk) (behind : Sector) (root : ℕ)
    (items : List (BtrfsNode × ℕ)) (h : SearchTree g d behind root items) (key : BtrfsKey) (n : ℕ)
    (hn : 2 ^ 32 < n) : ∃ r, (g.treeSearch d behind n root key).Yields r ∧
      ∀ leaf i, r = some (leaf, i) ↔ (leaf, i) ∈ items ∧ leaf.itemKey i = key := by
  obtain ⟨leaf, hleaf, hordered, hsub, hkey⟩ := h.exists_leaf key
  refine ⟨_, yields_treeSearch.mpr ⟨leaf, hleaf.yields hn, rfl⟩, fun node i => ?_⟩
  have hmem : ∀ j, (leaf, j) ∈ leaf.items ↔ j < leaf.nritems := by simp [BtrfsNode.items]
  simp only [BtrfsNode.itemCount_of_lt hordered.count_lt, Option.map_eq_some_iff, Prod.mk.injEq,
    BtrfsNode.findItem_eq_some hordered (Nat.zero_add _)]
  constructor
  · rintro ⟨j, ⟨-, hj, hjkey⟩, rfl, rfl⟩
    exact ⟨hsub.subset ((hmem j).mpr hj), hjkey⟩
  · rintro ⟨hi, hikey⟩
    have hitem := hkey (node, i) hi hikey
    obtain ⟨j, -, hj⟩ := mem_map.mp hitem
    obtain ⟨rfl, rfl⟩ := Prod.mk.inj hj
    exact ⟨j, ⟨Nat.zero_le j, (hmem j).mp hitem, hikey⟩, rfl, rfl⟩

end BtrfsSuper
end SageOS
