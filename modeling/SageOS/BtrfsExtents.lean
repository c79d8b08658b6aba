import SageOS.BtrfsLookup

/-!
# Reading BTRFS files

The extents of a file assign a byte to each position before its end. A read goes from extent to
extent. It starts each piece of data at the beginning of a sector, keeps room for 32 sectors of it
and does not look at the size of the file. So it returns what the extents assign if nothing is
asked for, if the file is inline, or if the range ends inside the file and its pieces start at
sectors and are short enough. Behind the end it is right if it finds no extent or an inline one.
-/
namespace SageOS
open Counted List
namespace BtrfsItem
variable (p : BtrfsItem)

abbrev isInline : Prop := p.1 (p.1.itemData p.2 + 20) = 0

abbrev isHole : Prop := le64 p.1 (p.1.itemData p.2 + 21) = 0

def extentEnd : ℕ := p.key.offset + le64 p.1 (p.1.itemData p.2 + 21 + 24)

end BtrfsItem

namespace BtrfsSuper
variable (g : BtrfsSuper) (d : Disk) (behind : Sector)

def physOf (p : BtrfsItem) (x : ℕ) : ℕ :=
  g.logicalToPhysical ((le64 p.1 (p.1.itemData p.2 + 21) + le64 p.1 (p.1.itemData p.2 + 21 + 16) +
    (x - p.key.offset)) % 2 ^ 64)

def byteAt (p : BtrfsItem) (x : ℕ) : UInt8 :=
  if p.1 (p.1.itemData p.2 + 20) = 0 then p.1 (p.1.itemData p.2 + 21 + (x - p.key.offset))
  else if le64 p.1 (p.1.itemData p.2 + 21) = 0 then 0
  else d ((btrfsPartitionStart + g.physOf p x / 512 % 2 ^ 32) % 2 ^ 32) (g.physOf p x % 512)

/-- The extents of a file by position; the search for a position arrives at its extent, and behind
the end at the last one, if there is any. An inline extent is the whole file, and the data of an
extent lie together on the disk. -/
structure FileMap (fsRoot objectid size : ℕ) (ext : ℕ → BtrfsItem) (last : Option BtrfsItem) :
    Prop where
  size_lt : size < 2 ^ 63
  inode : ∃ leaf i, Leaf g d behind ⟨objectid, 1, 0⟩ fsRoot leaf ∧
    leaf.findItem ⟨objectid, 1, 0⟩ leaf.itemCount 0 = some i ∧
    le64 leaf (leaf.itemData i + 16) = size
  found : ∀ x < size, Leaf g d behind ⟨objectid, 108, x⟩ fsRoot (ext x).1 ∧
    (ext x).1.findExtent objectid x (ext x).1.itemCount = some (ext x).2
  beyond : ∀ x < 2 ^ 64, size ≤ x → ∃ leaf, Leaf g d behind ⟨objectid, 108, x⟩ fsRoot leaf ∧
    (leaf.findExtent objectid x leaf.itemCount).map (Prod.mk leaf) = last
  lastWhole : ∀ p ∈ last, p.isInline → p.key.offset = 0 ∧ p.1.itemSize p.2 = size + 21
  whole : ∀ x < size, (ext x).isInline → (ext x).key.offset = 0 ∧
    (ext x).1.itemSize (ext x).2 = size + 21 ∧ ∀ y < size, ext y = ext x
  regular : ∀ x < size, ¬ (ext x).isInline → (ext x).1 ((ext x).1.itemData (ext x).2 + 20) = 1 ∧
    x < (ext x).extentEnd ∧
    ∀ y < size, (ext x).key.offset ≤ y → y < (ext x).extentEnd → ext y = ext x
  together : ∀ x < size, ¬ (ext x).isInline → ∀ y < size, x ≤ y → y < (ext x).extentEnd →
    g.physOf (ext x) y = g.physOf (ext x) x + (y - x)

/-- A range whose pieces the loop over the extents copies right. -/
structure PlainPieces (ext : ℕ → BtrfsItem) (fileSize offset size : ℕ) : Prop where
  inside : offset < fileSize
  count_lt : min size (fileSize - offset) < 2 ^ 31
  pieces : (ext offset).isInline ∨ offset + size ≤ fileSize ∧ ∀ x, offset ≤ x → x < offset + size →
    x = offset ∨ x = (ext x).key.offset → ¬ (ext x).isHole →
      g.physOf (ext x) x % 512 = 0 ∧ min ((ext x).extentEnd - x) (offset + size - x) ≤ 16384

/-- The ranges for which a read is right: no bytes, behind the end of a file that is inline or has
no extents, or inside the file. -/
def PlainRange (ext : ℕ → BtrfsItem) (last : Option BtrfsItem) (fileSize offset size : ℕ) : Prop :=
  size = 0 ∨ (fileSize ≤ offset ∧ offset < 2 ^ 64 ∧ ∀ p ∈ last, p.isInline) ∨
    PlainPieces g ext fileSize offset size

def bytesFrom (ext : ℕ → BtrfsItem) (x count : ℕ) : Bytes :=
  (range count).map fun j => g.byteAt d (ext (x + j)) (x + j)

variable {g d behind} {fsRoot objectid fileSize offset size n : ℕ} {ext : ℕ → BtrfsItem}
  {last : Option BtrfsItem} {stack : Sector}

theorem bytesFrom_append (x a b : ℕ) :
    g.bytesFrom d ext x a ++ g.bytesFrom d ext (x + a) b = g.bytesFrom d ext x (a + b) := by
  unfold bytesFrom
  rw [range_add, map_append, map_map]
  simp only [Function.comp_def, Nat.add_assoc]

theorem offset_le_of_findExtent {node : BtrfsNode} {x k i : ℕ}
    (h : node.findExtent objectid x k = some i) : (node.itemKey i).offset ≤ x := by
  induction k with
  | zero => cases h
  | succ k ih =>
    rw [BtrfsNode.findExtent] at h
    split_ifs at h with hkey hle
    · exact Option.some.inj h ▸ hle
    · exact ih h
    · exact ih h

namespace FileMap
variable (h : FileMap g d behind fsRoot objectid fileSize ext last)

include h

theorem start_le {x : ℕ} (hx : x < fileSize) : (ext x).key.offset ≤ x :=
  offset_le_of_findExtent (h.found x hx).2

theorem readExtent_inline {x room : ℕ} (hx : x < fileSize) (hin : (ext x).isInline) :
    (g.readExtent d stack (ext x).1 (ext x).2 x room).Yields
      (.inl (g.bytesFrom d ext x (min (fileSize - x) room))) := by
  obtain ⟨hstart, hsize, hsame⟩ := h.whole x hx hin
  have hlt := h.size_lt
  have hitem : (ext x).1.itemSize (ext x).2 < 2 ^ 32 := le32_lt _ _
  have hinline : ((ext x).1.itemSize (ext x).2 + 2 ^ 32 - 21) % 2 ^ 32 = fileSize := by omega
  have hkey : ((ext x).1.itemKey (ext x).2).offset = 0 := hstart
  unfold readExtent
  dsimp only
  rw [if_pos hin, hinline, hkey, Nat.sub_zero, if_neg (by omega)]
  refine yields_pure.mpr (congrArg Sum.inl (map_congr_left fun j hj => ?_))
  rw [mem_range] at hj
  rw [hsame (x + j) (by omega)]
  unfold byteAt
  rw [if_pos hin, hstart, Nat.sub_zero, ← Nat.add_assoc]

theorem readExtent_regular (stack : Sector) {x room : ℕ} (hx : x + room ≤ fileSize)
    (hroom : 0 < room) (hin : ¬ (ext x).isInline) (hpiece : ¬ (ext x).isHole →
      g.physOf (ext x) x % 512 = 0 ∧ min ((ext x).extentEnd - x) room ≤ 16384) :
    (g.readExtent d stack (ext x).1 (ext x).2 x room).Yields
      (.inr (g.bytesFrom d ext x (min ((ext x).extentEnd - x) room))) := by
  obtain ⟨htype, hend, hsame⟩ := h.regular x (by omega) hin
  have hstart := h.start_le (show x < fileSize by omega)
  have hnum : le64 (ext x).1 ((ext x).1.itemData (ext x).2 + 21 + 24) < 2 ^ 64 := by
    have h0 := le32_lt (ext x).1 ((ext x).1.itemData (ext x).2 + 21 + 24)
    have h1 := le32_lt (ext x).1 ((ext x).1.itemData (ext x).2 + 21 + 24 + 4)
    unfold le64
    omega
  have hcount : (le64 (ext x).1 ((ext x).1.itemData (ext x).2 + 21 + 24) + 2 ^ 64 -
      (x - ((ext x).1.itemKey (ext x).2).offset)) % 2 ^ 64 = (ext x).extentEnd - x := by
    unfold BtrfsItem.extentEnd BtrfsItem.key at hend ⊢
    unfold BtrfsItem.key at hstart
    omega
  have hext : ∀ j < min ((ext x).extentEnd - x) room, ext (x + j) = ext x := fun j hj =>
    hsame (x + j) (by omega) (by omega) (by omega)
  unfold readExtent
  dsimp only
  rw [if_neg hin, if_pos htype, hcount]
  by_cases hhole : (ext x).isHole
  · rw [if_pos hhole]
    refine yields_pure.mpr (congrArg Sum.inr (ext_getElem (by simp [bytesFrom]) ?_))
    intro j hj _
    rw [length_replicate] at hj
    simp only [bytesFrom, getElem_replicate, getElem_map, getElem_range]
    rw [hext j hj, byteAt, if_neg hin, if_pos hhole]
  · rw [if_neg hhole]
    obtain ⟨halign, hshort⟩ := hpiece hhole
    refine yields_tick_bind.mpr (yields_pure.mpr (congrArg Sum.inr ?_))
    refine map_congr_left fun j hj => ?_
    rw [mem_range] at hj
    have hphys := h.together x (by omega) hin (x + j) (by omega) (by omega) (by omega)
    rw [Nat.add_sub_cancel_left] at hphys
    rw [if_pos (by omega), hext j hj, byteAt, if_neg hin, if_neg hhole, hphys]
    change d (((btrfsPartitionStart + g.physOf (ext x) x / 512 % 2 ^ 32) % 2 ^ 32 + j / 512) %
      2 ^ 32) (j % 512) = _
    generalize g.physOf (ext x) x = phys at halign
    have hsector : (phys + j) / 512 = phys / 512 + j / 512 := by omega
    have hbyte : (phys + j) % 512 = j % 512 := by omega
    have hlba : ∀ a b c : ℕ, ((a + b % 2 ^ 32) % 2 ^ 32 + c) % 2 ^ 32 =
        (a + (b + c) % 2 ^ 32) % 2 ^ 32 := by omega
    rw [hsector, hbyte, hlba]

theorem start_eq {x : ℕ} (hend : (ext x).extentEnd < fileSize) (hx : x < (ext x).extentEnd)
    (hin : ¬ (ext x).isInline) (hnext : ¬ (ext (ext x).extentEnd).isInline) :
    (ext x).extentEnd = (ext (ext x).extentEnd).key.offset := by
  by_contra hne
  have hle := h.start_le hend
  have hstart := h.start_le (hx.trans hend)
  obtain ⟨-, hlt, hback⟩ := h.regular _ hend hnext
  have hsame := (h.regular x (hx.trans hend) hin).2.2
  have heq := hback ((ext x).extentEnd - 1) (by omega) (by omega) (by omega)
  rw [hsame _ (by omega) (by omega) (by omega)] at heq
  rw [← heq] at hlt
  exact lt_irrefl _ hlt

theorem loop_regular (hn : 2 ^ 32 < n) (hend : offset + size ≤ fileSize)
    (hreg : ∀ x < fileSize, ¬ (ext x).isInline)
    (hpieces : ∀ x, offset ≤ x → x < offset + size → x = offset ∨ x = (ext x).key.offset →
      ¬ (ext x).isHole → g.physOf (ext x) x % 512 = 0 ∧
        min ((ext x).extentEnd - x) (offset + size - x) ≤ 16384) {k rounds : ℕ}
    (hk : k ≤ size) (hrounds : size - k < rounds)
    (hstart : k < size → k = 0 ∨ offset + k = (ext (offset + k)).key.offset) :
    (loop (g.readStep d behind n stack fsRoot objectid offset size) rounds
      (g.bytesFrom d ext offset k)).Yields (g.bytesFrom d ext offset size) := by
  induction rounds generalizing k with
  | zero => omega
  | succ rounds ih =>
    have hlength : (g.bytesFrom d ext offset k).length = k := by simp [bytesFrom]
    rw [yields_loop_succ]
    unfold readStep
    rw [hlength]
    by_cases hdone : size ≤ k
    · obtain rfl : k = size := by omega
      rw [if_pos le_rfl]
      exact .inl (.pure _)
    right
    have hsize := h.size_lt
    have hx : offset + k < fileSize := by omega
    have hin := hreg _ hx
    obtain ⟨hleaf, hfind⟩ := h.found _ hx
    obtain ⟨-, hlt, -⟩ := h.regular _ hx hin
    have hpiece := hpieces (offset + k) (by omega) (by omega) ((hstart (by omega)).imp_left
      fun hzero => by omega)
    rw [show offset + size - (offset + k) = size - k by omega] at hpiece
    have hread := h.readExtent_regular stack (show offset + k + (size - k) ≤ fileSize by omega)
      (by omega) hin hpiece
    generalize hc : min ((ext (offset + k)).extentEnd - (offset + k)) (size - k) = c at hread
    refine ⟨g.bytesFrom d ext offset (k + c), ?_, ih (by omega) (by omega) fun hmore => .inr ?_⟩
    · rw [if_neg hdone, Nat.mod_eq_of_lt (by omega)]
      refine yields_bind.mpr ⟨_, hleaf.yields hn, ?_⟩
      rw [hfind]
      refine yields_bind.mpr ⟨_, hread, yields_pure.mpr ?_⟩
      rw [bytesFrom_append]
    · have hnext : offset + (k + c) = (ext (offset + k)).extentEnd := by omega
      rw [hnext]
      exact h.start_eq (by omega) hlt hin (hreg _ (by omega))

theorem loop_inline (hn : 2 ^ 32 < n) (hoff : offset < fileSize) (hin : (ext offset).isInline)
    {rounds : ℕ} (hrounds : 1 < rounds) :
    (loop (g.readStep d behind n stack fsRoot objectid offset size) rounds []).Yields
      (g.bytesFrom d ext offset (min (fileSize - offset) size)) := by
  obtain ⟨rounds, rfl⟩ : ∃ r, rounds = r + 1 := ⟨rounds - 1, by omega⟩
  rw [yields_loop_succ]
  unfold readStep
  left
  by_cases hzero : size = 0
  · rw [if_pos (by simp [hzero]), hzero, Nat.min_zero]
    exact .pure _
  have hsize := h.size_lt
  obtain ⟨hleaf, hfind⟩ := h.found _ hoff
  rw [if_neg (by simpa using hzero), length_nil, Nat.add_zero, Nat.mod_eq_of_lt (by omega)]
  refine yields_bind.mpr ⟨_, hleaf.yields hn, ?_⟩
  rw [hfind]
  exact yields_bind.mpr ⟨_, h.readExtent_inline hoff hin, .pure _⟩

theorem loop_beyond (hn : 2 ^ 32 < n) (hoff : fileSize ≤ offset) (hlt : offset < 2 ^ 64)
    (hlast : ∀ p ∈ last, p.isInline) {rounds : ℕ} (hrounds : 0 < rounds) :
    (loop (g.readStep d behind n stack fsRoot objectid offset size) rounds []).Yields [] := by
  obtain ⟨rounds, rfl⟩ : ∃ r, rounds = r + 1 := ⟨rounds - 1, by omega⟩
  rw [yields_loop_succ]
  unfold readStep
  left
  by_cases hzero : size = 0
  · rw [if_pos (by simp [hzero])]
    exact .pure _
  obtain ⟨leaf, hleaf, hfind⟩ := h.beyond offset hlt hoff
  rw [if_neg (by simpa using hzero), length_nil, Nat.add_zero, Nat.mod_eq_of_lt hlt]
  refine yields_bind.mpr ⟨_, hleaf.yields hn, ?_⟩
  cases hi : leaf.findExtent objectid offset leaf.itemCount with
  | none => exact .pure _
  | some i =>
    have hmem : (leaf, i) ∈ last := by rw [← hfind, hi]; rfl
    obtain ⟨hstart, hsize⟩ := h.lastWhole _ hmem (hlast _ hmem)
    have hkey : (leaf.itemKey i).offset = 0 := hstart
    have hitem : leaf.itemSize i < 2 ^ 32 := le32_lt _ _
    refine yields_bind.mpr ⟨.inl [], ?_, .pure _⟩
    unfold readExtent
    dsimp only at hsize ⊢
    rw [if_pos (hlast _ hmem), hkey, if_pos (by omega)]
    exact .pure _

end FileMap

/-- A leaf with the entry `a` of the root directory, its inode of five bytes and its extent. -/
def fileLeaf : List (ℕ × UInt8) :=
  [(76, 3), (82, 1), (89, 96), (90, 2), (98, 100), (201, 1), (202, 1), (228, 1), (230, 1),
    (231, 0x61), (106, 1), (107, 1), (114, 1), (123, 140), (257, 5), (131, 1), (132, 1), (139, 108),
    (148, 200), (152, 53), (321, 1), (323, 4), (347, 16)]

def fileDisk : Disk :=
  plainDisk [rootLeaf, fileLeaf, [(0, 1), (1, 2), (2, 3), (3, 4), (4, 5)]]

def fileNode : BtrfsNode := plainSuper.nodeAt fileDisk (fun _ => 0) 512

theorem fileMap_fileDisk : (∀ key, Leaf plainSuper fileDisk (fun _ => 0) key 512 fileNode) ∧
    FileMap plainSuper fileDisk (fun _ => 0) 512 257 5 (fun _ => (fileNode, 2))
      (some (fileNode, 2)) := by
  have hleaf : ∀ key, Leaf plainSuper fileDisk (fun _ => 0) key 512 fileNode :=
    fun _ => .leaf (by decide +kernel)
  have hitems : fileNode.itemCount = 3 ∧ fileNode.itemKey 2 = ⟨257, 108, 0⟩ ∧
      ¬ BtrfsItem.isInline (fileNode, 2) := by
    decide +kernel
  have hfound (x : ℕ) : fileNode.findExtent 257 x fileNode.itemCount = some 2 := by
    rw [hitems.1, BtrfsNode.findExtent, hitems.2.1, if_pos ⟨rfl, rfl⟩, if_pos (Nat.zero_le x)]
  have hend : 5 < BtrfsItem.extentEnd (fileNode, 2) := by decide +kernel
  have htogether : ∀ x < 5, ∀ y < 5, x ≤ y → plainSuper.physOf (fileNode, 2) y =
      plainSuper.physOf (fileNode, 2) x + (y - x) := by decide +kernel
  refine ⟨hleaf, by norm_num, ⟨fileNode, 1, hleaf _, by decide +kernel, by decide +kernel⟩,
    fun x _ => ?_, fun x _ _ => ⟨fileNode, hleaf _, by rw [hfound]; rfl⟩, ?_,
    fun _ _ hin => absurd hin hitems.2.2,
    fun x hx _ => ⟨by decide +kernel, by omega, fun _ _ _ _ => rfl⟩,
    fun x hx _ y hy hxy _ => htogether x hx y hy hxy⟩
  · dsimp only
    exact ⟨hleaf _, hfound x⟩
  · intro p hp hin
    rw [← Option.mem_some_iff.mp hp] at hin
    exact absurd hin hitems.2.2

end BtrfsSuper
end SageOS
