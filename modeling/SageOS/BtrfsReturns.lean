import SageOS.BtrfsTree
import SageOS.Fat32Requests

/-!
# When BTRFS requests return

Every read returns exactly if paths can be resolved, the descents to the extents of all files come
to leaves, and no read can start at the very end of the extent that it finds: there a round copies
nothing and the loop goes on for ever. What a request reads is bounded as for FAT32 volumes.
-/
namespace SageOS.BtrfsSuper
open Counted List
variable {g : BtrfsSuper} {d : Disk} {behind : Sector} {n : ℕ} {key : BtrfsKey} {root : ℕ}
variable (g d behind) in
/-- Descents to extents end, and no offset is the very end of the extent that is found for it. -/
def ExtentsEnd (fsRoot objectid : ℕ) : Prop :=
  ∀ cur < 2 ^ 64, ∃ leaf, Leaf g d behind ⟨objectid, 108, cur⟩ fsRoot leaf ∧
    ∀ i, leaf.findExtent objectid cur leaf.itemCount = some i → leaf (leaf.itemData i + 20) = 1 →
      le64 leaf (leaf.itemData i + 21 + 24) ≠ cur - (leaf.itemKey i).offset

variable (g d behind) in
def FilesEnd : Prop :=
  ∀ node, Leaf g d behind fsTreeKey g.root node → fsRootIn node ≠ 0 → ∀ objectid,
    Inode g d behind (fsRootIn node) objectid → objectid ≠ 0 →
      ExtentsEnd g d behind (fsRootIn node) objectid

theorem le64_lt (s : Sector) (i : ℕ) : le64 s i < 2 ^ 64 := by
  have hlo := le32_lt s i
  have hhi := le32_lt s (i + 4)
  unfold le64
  omega

variable (stack : Sector)

theorem readExtent_other {node : BtrfsNode} {i : ℕ} (htype : node (node.itemData i + 20) ≠ 1)
    (cur room : ℕ) : ∃ more, (g.readExtent d stack node i cur room).Yields (.inl more) := by
  unfold readExtent
  dsimp only
  split_ifs
  · exact ⟨_, .pure _⟩
  · exact ⟨_, .pure _⟩
  · exact ⟨_, .pure _⟩

theorem readExtent_regular {node : BtrfsNode} {i : ℕ} (htype : node (node.itemData i + 20) = 1)
    (cur room : ℕ) : ∃ more, (g.readExtent d stack node i cur room).Yields (.inr more) ∧
      more.length = min ((le64 node (node.itemData i + 21 + 24) + 2 ^ 64 -
        (cur - (node.itemKey i).offset)) % 2 ^ 64) room := by
  unfold readExtent
  rw [if_neg (by simp [htype]), if_pos htype]
  split_ifs
  · exact ⟨_, .pure _, length_replicate⟩
  · refine ⟨_, yields_tick_bind.mpr (.pure _), ?_⟩
    rw [length_map, length_range]

theorem exists_readLoop {fsRoot objectid : ℕ} (h : ExtentsEnd g d behind fsRoot objectid)
    (offset size : ℕ) (hn : 2 ^ 32 + size < n) :
    ∃ out, (loop (g.readStep d behind n stack fsRoot objectid offset size) n []).Yields out := by
  refine exists_yields_loop (I := fun _ => True) (μ := fun out => size - out.length)
    (fun out _ => ?_) trivial (by rw [length_nil]; omega)
  unfold readStep
  by_cases hdone : size ≤ out.length
  · rw [if_pos hdone]
    exact .inl ⟨_, .pure _⟩
  rw [if_neg hdone]
  obtain ⟨leaf, hleaf, hend⟩ := h ((offset + out.length) % 2 ^ 64) (Nat.mod_lt _ (by decide))
  have hyields := hleaf.yields (n := n) (by omega)
  cases hfind : leaf.findExtent objectid ((offset + out.length) % 2 ^ 64) leaf.itemCount with
  | none =>
    refine .inl ⟨out, yields_bind.mpr ⟨leaf, hyields, ?_⟩⟩
    rw [hfind]
    exact .pure _
  | some i =>
    by_cases htype : leaf (leaf.itemData i + 20) = 1
    · have hbytes := le64_lt leaf (leaf.itemData i + 21 + 24)
      have hne := hend i hfind htype
      obtain ⟨more, hmore, hlen⟩ := readExtent_regular (g := g) (d := d) stack htype
        ((offset + out.length) % 2 ^ 64) (size - out.length)
      refine .inr ⟨out ++ more, yields_bind.mpr ⟨leaf, hyields, ?_⟩, trivial, ?_⟩
      · rw [hfind]
        exact yields_bind.mpr ⟨_, hmore, .pure _⟩
      · rw [length_append, hlen]
        omega
    · obtain ⟨more, hmore⟩ := readExtent_other (g := g) (d := d) stack htype
        ((offset + out.length) % 2 ^ 64) (size - out.length)
      refine .inl ⟨out ++ more, yields_bind.mpr ⟨leaf, hyields, ?_⟩⟩
      rw [hfind]
      exact yields_bind.mpr ⟨_, hmore, .pure _⟩

/-- A read of one byte at an offset that returns comes to a leaf and not to the very end of an
extent. -/
theorem extentsEnd_of_reads {fsRoot objectid : ℕ} (h : ∀ cur < 2 ^ 64, ∃ n out,
    (loop (g.readStep d behind n stack fsRoot objectid cur 1) n []).Yields out) :
    ExtentsEnd g d behind fsRoot objectid := by
  intro cur hcur
  have hmod : (cur + ([] : Bytes).length) % 2 ^ 64 = cur := Nat.mod_eq_of_lt hcur
  obtain ⟨n, out, hout⟩ := h cur hcur
  -- The first round searches for the offset.
  have hleaf : ∃ leaf, (g.descend d behind n fsRoot ⟨objectid, 108, cur⟩).Yields leaf := by
    obtain ⟨k, hk⟩ : ∃ k, n = k + 1 := by
      cases n with
      | zero => exact absurd hout not_yields_loop_zero
      | succ k => exact ⟨k, rfl⟩
    have hfirst : ∃ r, (g.readStep d behind n stack fsRoot objectid cur 1 []).Yields r := by
      rw [hk] at hout
      rcases yields_loop_succ.mp hout with h | ⟨s, h, -⟩
      · exact ⟨_, hk ▸ h⟩
      · exact ⟨_, hk ▸ h⟩
    obtain ⟨r, hr⟩ := hfirst
    unfold readStep at hr
    rw [if_neg (by simp), hmod] at hr
    obtain ⟨leaf, hleaf, -⟩ := yields_bind.mp hr
    exact ⟨leaf, hleaf⟩
  obtain ⟨leaf, hleaf⟩ := hleaf
  refine ⟨leaf, .of_descend hleaf, fun i hfind htype hend => ?_⟩
  refine not_yields_loop (I := fun out => out = []) (fun s hs r hr => ?_) rfl hout
  subst hs
  unfold readStep at hr
  rw [if_neg (by simp), hmod] at hr
  obtain ⟨leaf', hleaf', hr⟩ := yields_bind.mp hr
  obtain rfl := hleaf'.unique hleaf
  rw [hfind] at hr
  obtain ⟨e, he, hr⟩ := yields_bind.mp hr
  obtain ⟨more, hmore, hlen⟩ := readExtent_regular (g := g) (d := d) stack htype cur
    (1 - ([] : Bytes).length)
  obtain rfl := he.unique hmore
  have hzero : more.length = 0 := by
    omega
  obtain rfl := eq_nil_of_length_eq_zero hzero
  exact ⟨_, (yields_pure.mp hr).symm, rfl⟩

section Costs
variable (hsectors : g.nodeSectors ≤ 2 ^ 23)

include hsectors

theorem costs_descend : (g.descend d behind n root key).Costs (n * 2 ^ 23) := by
  have hstep : ∀ logical, (do
      let node ← g.readNode d behind logical
      if 0 < node.level then pure (.inr (node.child key)) else pure (.inl node) :
        Counted (BtrfsNode ⊕ ℕ)).Costs (2 ^ 23) := by
    intro logical
    have hread : (g.readNode d behind logical).Costs g.nodeSectors :=
      (costs_tick _).bind_zero fun _ => costs_pure _
    exact (hread.bind_zero fun node => (costs_pure _).ite (costs_pure _)).mono hsectors
  exact costs_loop hstep n root

theorem costs_treeSearch : (g.treeSearch d behind n root key).Costs (n * 2 ^ 23) :=
  (costs_descend hsectors).bind_zero fun _ => costs_pure _

theorem costs_getFsRoot : (g.getFsRoot d behind n).Costs (n * 2 ^ 23) := by
  refine (costs_treeSearch hsectors).bind_zero fun r => ?_
  cases r with
  | none => exact costs_pure _
  | some r => exact costs_pure _

theorem costs_resolveParts (fsRoot objectid : ℕ) (parts : List Bytes) :
    (g.resolveParts d behind n fsRoot objectid parts).Costs (parts.length * (n * 2 ^ 23)) := by
  induction parts generalizing objectid with
  | nil => exact costs_pure _
  | cons part rest ih =>
    rw [resolveParts, length_cons, Nat.add_mul, Nat.one_mul, Nat.add_comm]
    refine (costs_descend hsectors).bind fun node => ?_
    cases node.findName objectid part node.nritems 0 with
    | none => exact costs_pure _
    | some objectid' => exact ih objectid'

theorem costs_resolvePath (path : Bytes) :
    (g.resolvePath d behind n path).Costs ((path.length + 2) * (n * 2 ^ 23)) := by
  have hparts : (pathParts path).length ≤ path.length + 1 :=
    (length_filter_le _ _).trans (Fat32Scan.length_splitOnP_le _ path)
  refine (costs_pure _).ite ((costs_pure _).ite ?_)
  rw [show path.length + 2 = 1 + (path.length + 1) by omega, Nat.add_mul, Nat.one_mul]
  refine (costs_getFsRoot hsectors).bind fun fsRoot => (costs_pure _).ite ?_
  exact (costs_resolveParts hsectors fsRoot 256 _).mono (Nat.mul_le_mul_right _ hparts)

omit hsectors in
theorem costs_readExtent (node : BtrfsNode) (i cur room : ℕ) :
    (g.readExtent d stack node i cur room).Costs 32 := by
  refine ((costs_pure _).ite (costs_pure _)).ite (((costs_pure _).ite ?_).ite (costs_pure _))
  exact ((costs_tick _).bind_zero fun _ => costs_pure _).mono (Nat.min_le_right _ _)

theorem costs_readStep (fsRoot objectid offset size : ℕ) (out : Bytes) :
    (g.readStep d behind n stack fsRoot objectid offset size out).Costs (n * 2 ^ 23 + 32) := by
  refine (costs_pure _).ite ((costs_descend hsectors).bind fun node => ?_)
  cases node.findExtent objectid ((offset + out.length) % 2 ^ 64) node.itemCount with
  | none => exact costs_pure _
  | some i =>
    refine (costs_readExtent stack node i _ _).bind_zero fun r => ?_
    cases r with
    | inl more => exact costs_pure _
    | inr more => exact costs_pure _

theorem costs_beRead (path : Bytes) (offset size : ℕ) :
    (g.beRead d behind n stack path offset size).Costs
      ((path.length + 2) * (n * 2 ^ 23) + (n * 2 ^ 23 + (n * (n * 2 ^ 23 + 32) + 0))) := by
  refine (costs_resolvePath hsectors path).bind fun objectid => (costs_pure _).ite ?_
  refine (costs_getFsRoot hsectors).bind fun fsRoot => (costs_pure _).ite ?_
  exact (costs_loop (costs_readStep stack hsectors fsRoot objectid offset size) n []).bind fun _ =>
    costs_pure _

end Costs

theorem nodeSectors_le (hinit : btrfsInit d behind = some g) : g.nodeSectors ≤ 2 ^ 23 := by
  unfold btrfsInit at hinit
  dsimp only at hinit
  split_ifs at hinit
  obtain rfl := Option.some.inj hinit
  have hlt := le32_lt (fun i =>
    if i < 3072 then d (btrfsPartitionStart + 128 + i / 512) (i % 512) else behind i) 148
  unfold nodeSectors
  dsimp only
  split_ifs <;> omega

theorem reads_le {p size a : ℕ} (hp : p ≤ size)
    (ha : a ≤ 2 * (fuelFor size * (fuelFor size * 2 ^ 24))) :
    (p + 2) * (fuelFor size * 2 ^ 23) + a ≤ readBound size := by
  have hfuel : 1 ≤ fuelFor size := by
    unfold fuelFor
    omega
  have hone : fuelFor size * 2 ^ 23 ≤ fuelFor size * (fuelFor size * 2 ^ 24) :=
    Nat.mul_le_mul_left _ (by omega)
  calc (p + 2) * (fuelFor size * 2 ^ 23) + a
    _ ≤ (size + 2) * (fuelFor size * (fuelFor size * 2 ^ 24)) +
          2 * (fuelFor size * (fuelFor size * 2 ^ 24)) :=
        Nat.add_le_add (Nat.mul_le_mul (by omega) hone) ha
    _ = readBound size := by rw [← Nat.add_mul, readBound]

theorem descent_add_le {n : ℕ} (hn : 1 ≤ n) :
    n * 2 ^ 23 + (n * (n * 2 ^ 23 + 32) + 0) ≤ 2 * (n * (n * 2 ^ 24)) := by
  rw [Nat.add_zero, Nat.two_mul]
  exact Nat.add_le_add (Nat.mul_le_mul_left n (by omega)) (Nat.mul_le_mul_left n (by omega))

theorem lt_fuelFor (size : ℕ) : 2 ^ 32 + size < fuelFor size := by
  unfold fuelFor
  omega

theorem lookup_le (size : ℕ) : (size + 2) * (fuelFor size * 2 ^ 23) ≤ readBound size := by
  have hreads := reads_le (le_refl size) (Nat.zero_le _)
  rwa [Nat.add_zero] at hreads

theorem descent_le (size : ℕ) : fuelFor size * 2 ^ 23 ≤ readBound size := by
  have hreads := reads_le (Nat.zero_le size) (Nat.zero_le _)
  omega

section Volume
variable (hinit : btrfsInit d behind = some g)

include hinit

theorem treeSearch_returns_iff (root : ℕ) (key : BtrfsKey) :
    Returns (fun n => g.treeSearch d behind n root key) (readBound 0) ↔
      ∃ node, Leaf g d behind key root node := by
  constructor
  · intro h
    obtain ⟨n, r, hr⟩ := h.yields
    obtain ⟨node, hnode, -⟩ := yields_treeSearch.mp hr
    exact ⟨node, .of_descend hnode⟩
  · intro ⟨node, hnode⟩
    obtain ⟨n, hlt, hle⟩ : ∃ n, 2 ^ 32 < n ∧ n * 2 ^ 23 ≤ readBound 0 :=
      ⟨fuelFor 0, (Nat.le_add_right _ 0).trans_lt (lt_fuelFor 0), descent_le 0⟩
    exact ⟨n, (yields_treeSearch.mpr ⟨node, hnode.yields hlt, rfl⟩).within
      ((costs_treeSearch (nodeSectors_le hinit)).mono hle)⟩

theorem resolvePath_returns_iff : (∀ path : Bytes, 0 ∉ path →
      Returns (fun n => g.resolvePath d behind n path) (readBound path.length)) ↔
      TreesEnd g d behind := by
  constructor
  · intro h
    exact treesEnd_of_lookups fun path hpath => (h path hpath).yields
  · intro h path hpath
    have hfuel := lt_fuelFor path.length
    obtain ⟨r, hr, -⟩ := exists_resolvePath (n := fuelFor path.length) h hpath (by omega)
    exact ⟨fuelFor path.length, hr.within ((costs_resolvePath (nodeSectors_le hinit) path).mono
      (lookup_le path.length))⟩

theorem beRead_returns_iff (stack : Sector) :
    (∀ (path : Bytes) (offset size : ℕ), 0 ∉ path → offset < 2 ^ 64 →
      Returns (fun n => g.beRead d behind n stack path offset size)
        (readBound (path.length + offset + size))) ↔
      TreesEnd g d behind ∧ FilesEnd g d behind := by
  constructor
  · intro h
    have hpaths : TreesEnd g d behind := by
      refine treesEnd_of_lookups fun path hpath => ?_
      obtain ⟨n, r, hr⟩ := (h path 0 0 hpath (by decide)).yields
      obtain ⟨objectid, ho, -⟩ := yields_bind.mp hr
      exact ⟨n, objectid, ho⟩
    refine ⟨hpaths, fun node hnode hroot objectid ho hne => ?_⟩
    obtain ⟨parts, hparts, hreach⟩ := ho.exists_parts
    refine extentsEnd_of_reads stack fun cur hcur => ?_
    obtain ⟨n, r, hr⟩ := (h (pathOf parts) cur 1 (nul_notMem_pathOf hparts) hcur).yields
    obtain ⟨objectid', ho', hr⟩ := yields_bind.mp hr
    -- The path leads to this objectid.
    have heq : objectid' = objectid := by
      by_cases hnil : parts = []
      · subst hnil
        have hself : objectid = 256 := yields_pure.mp (hreach [] 0 256 (.pure _))
        have hslash : 256 = objectid' := yields_pure.mp ho'
        omega
      · obtain ⟨node', hnode', hparts'⟩ := of_resolvePath_pathOf hparts hnil ho'
        obtain rfl := (Leaf.of_descend hnode').unique hnode
        have hend := hreach [] n objectid' (by rw [append_nil]; exact hparts' hroot)
        exact (yields_pure.mp hend).symm
    subst heq
    rw [if_neg hne] at hr
    obtain ⟨fsRoot, hfs, hr⟩ := yields_bind.mp hr
    obtain ⟨node', hnode', rfl⟩ := yields_getFsRoot.mp hfs
    obtain rfl := (Leaf.of_descend hnode').unique hnode
    rw [if_neg hroot] at hr
    obtain ⟨out, hout, -⟩ := yields_bind.mp hr
    exact ⟨n, out, hout⟩
  · intro ⟨hpaths, hfiles⟩ path offset size hpath _
    have hfuel := lt_fuelFor (path.length + offset + size)
    obtain ⟨node, hnode, -⟩ := id hpaths
    obtain ⟨objectid, ho, hinode⟩ := exists_resolvePath hpaths hpath
      (show 2 ^ 32 < fuelFor (path.length + offset + size) by omega)
    have hfs : (g.getFsRoot d behind (fuelFor (path.length + offset + size))).Yields
        (fsRootIn node) := yields_getFsRoot.mpr ⟨node, hnode.yields (by omega), rfl⟩
    suffices hyields : ∃ r, (g.beRead d behind (fuelFor (path.length + offset + size)) stack path
        offset size).Yields r by
      obtain ⟨r, hr⟩ := hyields
      refine ⟨_, hr.within ((costs_beRead stack (nodeSectors_le hinit) path offset size).mono
        (reads_le (by omega) ?_))⟩
      exact descent_add_le (by omega)
    apply ho.exists_bind
    split_ifs with hzero
    · exact ⟨_, .pure _⟩
    apply hfs.exists_bind
    split_ifs with hroot
    · exact ⟨_, .pure _⟩
    · obtain ⟨out, hout⟩ := exists_readLoop stack
        (hfiles node hnode hroot objectid (hinode node hnode hroot hzero) hzero) offset size
        (show 2 ^ 32 + size < fuelFor (path.length + offset + size) by omega)
      exact hout.exists_bind ⟨_, .pure _⟩

end Volume
end SageOS.BtrfsSuper
