import SageOS.CleanupObjects

/-!
# Blocks of the arena in use

The bytes of the blocks that are in use, as what lies below the bump pointer and is not free, and
what an allocation adds to them. A block that is given back leaves them as they were before it was
taken.
-/
namespace SageOS.Arena
open List Function
variable {a a' : Arena} {x size ptr : ℕ}

/-- The byte is in a block that is in use. -/
def Live (a : Arena) (x : ℕ) : Prop := x < a.bump ∧ ¬ a.FreeAt x

/-- The same bytes are in use, and the headers among them are the same. -/
def SameLive (a a' : Arena) : Prop :=
  (∀ x, a'.Live x ↔ a.Live x) ∧ ∀ x, a.Live x → a'.userSize x = a.userSize x

/-- Free blocks are made of whole units, lie below the bump pointer and are in order. -/
structure Tidy (a : Arena) : Prop where
  bump_le : a.bump ≤ sageArenaSize
  units : ∀ b ∈ a.freeList, b.size % 16 = 0 ∧ b.addr + b.size ≤ a.bump
  ordered : a.freeList.Pairwise fun b c => b.addr + b.size ≤ c.addr

theorem tidy_empty : empty.Tidy := ⟨Nat.zero_le _, nofun, .nil⟩

theorem covers_append {blocks blocks' : List FreeBlock} :
    Covers (blocks ++ blocks') x ↔ Covers blocks x ∨ Covers blocks' x := by
  unfold Covers
  simp only [mem_append, or_and_right, exists_or]

/-- The free blocks around the one that is taken, and what is left of it. -/
theorem firstFit_eq_some {need addr total : ℕ} {blocks rest : List FreeBlock}
    (h : firstFit need blocks = some (addr, total, rest)) :
    ∃ pre b cut post, blocks = pre ++ b :: post ∧ rest = pre ++ (cut ++ post) ∧ addr = b.addr ∧
      need ≤ total ∧ (total = b.size ∧ cut = [] ∨
        total = need ∧ need ≤ b.size ∧ cut = [⟨b.addr + total, b.size - total⟩]) := by
  induction blocks generalizing rest with
  | nil => cases h
  | cons b blocks ih =>
    unfold firstFit at h
    split_ifs at h with hfit hsplit
    · obtain ⟨rfl, rfl, rfl⟩ := h
      exact ⟨[], b, [_], blocks, rfl, rfl, rfl, le_rfl, .inr ⟨rfl, hfit, rfl⟩⟩
    · obtain ⟨rfl, rfl, rfl⟩ := h
      exact ⟨[], b, [], _, rfl, rfl, rfl, hfit, .inl ⟨rfl, rfl⟩⟩
    · obtain ⟨⟨addr', total', rest'⟩, htail, heq⟩ := Option.map_eq_some_iff.mp h
      obtain ⟨rfl, rfl, rfl⟩ := heq
      obtain ⟨pre, b', cut, post, rfl, rfl, hrest⟩ := ih htail
      exact ⟨b :: pre, b', cut, post, rfl, rfl, hrest⟩

/-- What an allocation adds to the blocks in use. -/
structure Grown (a : Arena) (ptr : ℕ) (a' : Arena) : Prop where
  tidy : a'.Tidy
  header : a'.InBlock ptr (ptr - allocHeaderSize)
  fresh : ∀ x, a'.InBlock ptr x → ¬ a.Live x
  live : ∀ x, a'.Live x ↔ a.Live x ∨ a'.InBlock ptr x
  smaller : ∀ c ∈ a'.freeList, ∃ b ∈ a.freeList, c.size ≤ b.size
  bump_le : a.bump ≤ a'.bump
  userSize : ∀ x, x ≠ ptr - allocHeaderSize → a'.userSize x = a.userSize x

theorem inBlock_writeHeader (a : Arena) (addr : ℕ) {total : ℕ} (hunit : total % 16 = 0)
    (hpos : 0 < total) (hlt : total < 2 ^ 63) (x : ℕ) :
    (a.writeHeader addr total).InBlock (addr + allocHeaderSize) x ↔
      addr ≤ x ∧ x < addr + total := by
  unfold InBlock writeHeader align allocHeaderSize
  dsimp only
  rw [Nat.add_sub_cancel, update_self,
    show (((total + 2 ^ 64 - 16) % 2 ^ 64 + 16) % 2 ^ 64 + 15) % 2 ^ 64 / 16 * 16 = total by omega]

theorem Tidy.grown (h : a.Tidy) (hsize : size < 2 ^ 62)
    (hm : a.sageMalloc size = some (ptr, a')) : Grown a ptr a' := by
  have hneed : needed size % 16 = 0 ∧ 16 ≤ needed size ∧ needed size < 2 ^ 63 := by
    unfold needed align allocHeaderSize
    omega
  obtain ⟨hbump, hunits, hordered⟩ := h
  have hlimit : sageArenaSize = 2 ^ 25 := rfl
  unfold sageMalloc at hm
  split_ifs at hm
  split at hm
  next addr total rest hfit =>
    obtain ⟨rfl, rfl⟩ := hm
    obtain ⟨pre, b, cut, post, hblocks, rfl, rfl, hle, hcut⟩ := firstFit_eq_some hfit
    rw [hblocks, pairwise_append, pairwise_cons] at hordered
    obtain ⟨hpre, ⟨hb, hpost⟩, hpb⟩ := hordered
    rw [hblocks] at hunits
    have hin := hunits b (by simp)
    have hblock := inBlock_writeHeader { a with freeList := pre ++ (cut ++ post) } b.addr
      (show total % 16 = 0 by omega) (by omega) (by omega)
    have hlow : ∀ x, Covers pre x → x < b.addr := by
      rintro x ⟨c, hc, -, hx⟩
      exact hx.trans_le (hpb c hc b mem_cons_self)
    have hhigh : ∀ x, Covers post x → b.addr + b.size ≤ x := by
      rintro x ⟨c, hc, hx, -⟩
      exact (hb c hc).trans hx
    have hleft : ∀ x, Covers cut x ↔ b.addr + total ≤ x ∧ x < b.addr + b.size := by
      intro x
      rcases hcut with ⟨rfl, rfl⟩ | ⟨-, -, rfl⟩
      · exact iff_of_false covers_nil (by omega)
      · rw [covers_cons, or_iff_left covers_nil]
        dsimp only
        omega
    have hlive : ∀ x,
        ({ a with freeList := pre ++ (cut ++ post) }.writeHeader b.addr total).Live x ↔
          a.Live x ∨ b.addr ≤ x ∧ x < b.addr + total := by
      intro x
      change x < a.bump ∧ ¬ Covers (pre ++ (cut ++ post)) x ↔
        (x < a.bump ∧ ¬ Covers a.freeList x) ∨ _
      rw [hblocks, covers_append, covers_append, covers_append, covers_cons, hleft]
      grind
    refine ⟨⟨hbump, ?_, ?_⟩, ?_, ?_, ?_, ?_, ?_, ?_⟩
    · have hpiece : ∀ c ∈ cut, c.size % 16 = 0 ∧ c.addr + c.size ≤ a.bump := by
        rcases hcut with ⟨-, rfl⟩ | ⟨rfl, hfits, rfl⟩
        · nofun
        · rintro _ (_ | ⟨_, ⟨⟩⟩)
          dsimp only
          omega
      refine forall_mem_append.mpr ⟨fun c hc => hunits c (mem_append_left _ hc),
        forall_mem_append.mpr ⟨hpiece, fun c hc => hunits c (by simp [hc])⟩⟩
    · change (pre ++ (cut ++ post)).Pairwise _
      grind
    · rw [hblock, Nat.add_sub_cancel]
      omega
    · rintro x hx ⟨-, hnot⟩
      exact hnot ⟨b, by rw [hblocks]; simp, by have := (hblock x).mp hx; omega⟩
    · intro x
      rw [hblock, hlive]
    · change ∀ c ∈ pre ++ (cut ++ post), ∃ b ∈ a.freeList, c.size ≤ b.size
      grind
    · exact le_rfl
    · intro x hx
      exact update_of_ne hx _ _
  next =>
    dsimp only at hm
    split_ifs at hm with hroom
    obtain ⟨rfl, rfl⟩ := hm
    rw [Nat.mod_eq_of_lt (by omega)] at hroom ⊢
    have hblock := inBlock_writeHeader { a with bump := a.bump + needed size } a.bump hneed.1
      (by omega) hneed.2.2
    have hbelow : ∀ x, a.FreeAt x → x < a.bump := by
      rintro x ⟨b, hb, -, hx⟩
      exact hx.trans_le (hunits b hb).2
    refine ⟨⟨not_lt.mp hroom, fun c hc => ?_, hordered⟩, ?_, ?_, ?_, ?_, ?_, ?_⟩
    · exact ⟨(hunits c hc).1, (hunits c hc).2.trans (Nat.le_add_right _ _)⟩
    · rw [hblock, Nat.add_sub_cancel]
      omega
    · intro x hx hl
      exact absurd hl.1 (not_lt.mpr ((hblock x).mp hx).1)
    · intro x
      change x < a.bump + needed size ∧ ¬ a.FreeAt x ↔ (x < a.bump ∧ ¬ a.FreeAt x) ∨ _
      grind
    · exact fun c hc => ⟨c, hc, le_rfl⟩
    · exact Nat.le_add_right _ _
    · intro x hx
      exact update_of_ne hx _ _

theorem live_sageFree (a : Arena) (ptr x : ℕ) :
    (a.sageFree ptr).Live x ↔ a.Live x ∧ ¬ a.InBlock ptr x := by
  unfold Live
  rw [freeAt_sageFree, not_or, ← and_assoc]
  rfl

theorem Grown.sameLive (h : Grown a ptr a') : SameLive a (a'.sageFree ptr) := by
  refine ⟨fun x => ?_, fun x hx => h.userSize x fun heq => ?_⟩
  · rw [live_sageFree, h.live]
    exact ⟨fun hx => hx.1.resolve_right hx.2, fun hx => ⟨.inl hx, fun hin => h.fresh x hin hx⟩⟩
  · exact h.fresh x (heq ▸ h.header) hx

/-- What is in use stays so. -/
def Extends (a a' : Arena) : Prop := ∀ x, a.Live x → a'.Live x ∧ a'.userSize x = a.userSize x

theorem Grown.extends (h : Grown a ptr a') : Extends a a' := by
  intro x hx
  exact ⟨(h.live x).mpr (.inl hx), h.userSize x fun heq => h.fresh x (heq ▸ h.header) hx⟩

theorem Extends.trans {a'' : Arena} (h : Extends a a') (h' : Extends a' a'') : Extends a a'' := by
  intro x hx
  obtain ⟨hl, hu⟩ := h x hx
  exact ⟨(h' x hl).1, (h' x hl).2.trans hu⟩

/-- A byte that came into use after the block that is given back stays in use. -/
theorem Grown.not_sameLive {b : Arena} (h : Grown a ptr a') (hext : Extends a' b)
    (hnew : ¬ a'.Live x) (hx : b.Live x) : ¬ SameLive a (b.sageFree ptr) := by
  intro hsame
  have hheader := hext _ ((h.live _).mpr (.inr h.header))
  refine hnew ((h.live x).mpr (.inl ((hsame.1 x).mp ?_)))
  rw [live_sageFree]
  refine ⟨hx, fun hin => hnew ((h.live x).mpr (.inr ?_))⟩
  unfold InBlock at hin ⊢
  rwa [hheader.2] at hin

/-- The arena after a request that may fail. -/
def requested (a : Arena) (size : ℕ) : Arena := (a.sageMalloc size).elim a (·.2)

theorem Tidy.requested (h : a.Tidy) (hsize : size < 2 ^ 62) :
    (a.requested size).Tidy ∧ Extends a (a.requested size) ∧
      (a.sageMalloc size ≠ none → ∃ x, ¬ a.Live x ∧ (a.requested size).Live x) := by
  unfold Arena.requested
  cases hm : a.sageMalloc size with
  | none => exact ⟨h, fun _ hx => ⟨hx, rfl⟩, fun hne => absurd rfl hne⟩
  | some r =>
    have hg := h.grown hsize hm
    exact ⟨hg.tidy, hg.extends, fun _ =>
      ⟨_, hg.fresh _ hg.header, (hg.live _).mpr (.inr hg.header)⟩⟩

theorem firstFit_eq_none_iff {need : ℕ} {blocks : List FreeBlock} :
    firstFit need blocks = none ↔ ∀ b ∈ blocks, b.size < need := by
  induction blocks with
  | nil => exact iff_of_true rfl nofun
  | cons b rest ih =>
    unfold firstFit
    rw [forall_mem_cons]
    split_ifs with hfit
    · exact iff_of_false nofun fun h => absurd h.1 (by omega)
    · exact iff_of_false nofun fun h => absurd h.1 (by omega)
    · rw [Option.map_eq_none_iff, ih, and_iff_right (not_le.mp hfit)]

theorem Tidy.sageMalloc_eq_none_iff (h : a.Tidy) (hpos : size ≠ 0) (hsize : size < 2 ^ 62) :
    a.sageMalloc size = none ↔
      (∀ b ∈ a.freeList, b.size < needed size) ∧ sageArenaSize < a.bump + needed size := by
  have hbump := h.bump_le
  have hlimit : sageArenaSize = 2 ^ 25 := rfl
  have hneed : needed size < 2 ^ 63 := by
    unfold needed align allocHeaderSize
    omega
  unfold sageMalloc
  rw [if_neg hpos, ← firstFit_eq_none_iff]
  cases hfit : firstFit (needed size) a.freeList with
  | some r => exact iff_of_false nofun nofun
  | none =>
    dsimp only
    rw [Nat.mod_eq_of_lt (by omega)]
    split_ifs with hroom
    · exact iff_of_true rfl ⟨rfl, hroom⟩
    · exact iff_of_false nofun fun h => hroom h.2

/-- What could not be had before an allocation cannot be had after it, and no more of it. -/
theorem Tidy.sageMalloc_eq_none (h : a.Tidy) {n : ℕ} (hpos : size ≠ 0) (hle : size ≤ n)
    (hn : n < 2 ^ 62) (hm : a.sageMalloc size = none) {r : ℕ} (hr : r < 2 ^ 62) :
    (a.requested r).sageMalloc n = none := by
  have hneed : needed size ≤ needed n := by
    unfold needed align allocHeaderSize
    omega
  obtain ⟨hfree, hroom⟩ := (h.sageMalloc_eq_none_iff hpos (by omega)).mp hm
  rw [(h.requested hr).1.sageMalloc_eq_none_iff (by omega) hn]
  unfold Arena.requested
  cases hreq : a.sageMalloc r with
  | none => exact ⟨fun b hb => (hfree b hb).trans_le hneed, by dsimp only [Option.elim]; omega⟩
  | some res =>
    have hg := h.grown hr hreq
    refine ⟨fun c hc => ?_, ?_⟩
    · obtain ⟨b, hb, hcb⟩ := hg.smaller c hc
      exact (hcb.trans_lt (hfree b hb)).trans_le hneed
    · have := hg.bump_le
      dsimp only [Option.elim]
      omega

end SageOS.Arena
