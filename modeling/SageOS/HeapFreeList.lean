import SageOS.HeapMemory
import SageOS.Tiling

/-!
# The free list in memory

`FreeSeg mem p bs q` says that the links lead from `p` through the free tiles `bs` to `q`. It reads
only the two words at the start of each tile. The loops of the allocator are described on such a
list: where they stop, and which link they return.
-/
namespace SageOS
open Tiling List Function Heap

def FreeSeg (mem : ℕ → ℕ) : ℕ → List Tile → ℕ → Prop
  | p, [], q => p = q
  | p, b :: bs, q => p = b.addr ∧ mem b.addr = b.size ∧ FreeSeg mem (mem (b.addr + 8)) bs q

/-- The last of the links of a list, or the one before the list. -/
def linkOf (prev : Option ℕ) : List Tile → Option ℕ
  | [] => prev
  | b :: bs => linkOf (some b.addr) bs

/-- The first address of a list, or the address after it. -/
def startOf (bs : List Tile) (q : ℕ) : ℕ := (bs.head?.map Tile.addr).getD q

/-- There is room for the two words of each tile. -/
def Spaced (bs : List Tile) : Prop := bs.Pairwise fun b c => b.addr + 16 ≤ c.addr

variable {mem mem' : ℕ → ℕ} {p q q' : ℕ} {as bs : List Tile} {b : Tile} {h : Heap}

theorem freeSeg_append :
    FreeSeg mem p (as ++ bs) q ↔ ∃ r, FreeSeg mem p as r ∧ FreeSeg mem r bs q := by
  induction as generalizing p with
  | nil => simp [FreeSeg]
  | cons a as ih => simp [FreeSeg, ih, and_assoc]

theorem freeSeg_append_cons : FreeSeg mem p (as ++ b :: bs) q ↔
    FreeSeg mem p as b.addr ∧ mem b.addr = b.size ∧ FreeSeg mem (mem (b.addr + 8)) bs q := by
  rw [freeSeg_append]
  constructor
  · rintro ⟨r, has, rfl, hsize, hbs⟩
    exact ⟨has, hsize, hbs⟩
  · rintro ⟨has, hsize, hbs⟩
    exact ⟨b.addr, has, rfl, hsize, hbs⟩

namespace FreeSeg

theorem start (hs : FreeSeg mem p bs q) : p = startOf bs q := by
  cases bs with
  | nil => exact hs
  | cons b bs => exact hs.1

theorem congr (hs : FreeSeg mem p bs q)
    (hmem : ∀ b ∈ bs, mem' b.addr = mem b.addr ∧ mem' (b.addr + 8) = mem (b.addr + 8)) :
    FreeSeg mem' p bs q := by
  induction bs generalizing p with
  | nil => exact hs
  | cons b bs ih =>
    obtain ⟨hp, hsize, hbs⟩ := hs
    obtain ⟨hb, hb8⟩ := hmem b mem_cons_self
    refine ⟨hp, hb.trans hsize, ?_⟩
    rw [hb8]
    exact ih hbs fun c hc => hmem c (mem_cons_of_mem b hc)

theorem store (hs : FreeSeg h.mem p bs q) {addr value : ℕ}
    (haddr : ∀ b ∈ bs, addr ≠ b.addr ∧ addr ≠ b.addr + 8) :
    FreeSeg (h.store addr value).mem p bs q :=
  hs.congr fun b hb =>
    ⟨update_of_ne (haddr b hb).1.symm _ _, update_of_ne (haddr b hb).2.symm _ _⟩

theorem relink (hs : FreeSeg mem p (as ++ [b]) q) (hspaced : Spaced (as ++ [b])) :
    FreeSeg (update mem (b.addr + 8) q') p (as ++ [b]) q' := by
  obtain ⟨has, hsize, -⟩ := freeSeg_append_cons.mp hs
  refine freeSeg_append_cons.mpr ⟨has.congr fun a ha => ?_, ?_, ?_⟩
  · have hab := (pairwise_append.mp hspaced).2.2 a ha b (mem_singleton_self b)
    exact ⟨update_of_ne (by omega) _ _, update_of_ne (by omega) _ _⟩
  · rw [update_of_ne (by omega)]
    exact hsize
  · rw [update_self]
    rfl

end FreeSeg

theorem linkOf_concat (prev : Option ℕ) (as : List Tile) (b : Tile) :
    linkOf prev (as ++ [b]) = some b.addr := by
  induction as generalizing prev with
  | nil => rfl
  | cons a as ih => exact ih (some a.addr)

theorem freeSeg_setLink (hs : FreeSeg h.mem h.freeList as q) (hspaced : Spaced as) :
    FreeSeg (h.setLink (linkOf none as) q').mem (h.setLink (linkOf none as) q').freeList as q' := by
  rcases eq_nil_or_concat as with rfl | ⟨as, b, rfl⟩
  · rfl
  · rw [concat_eq_append] at hs hspaced ⊢
    rw [linkOf_concat]
    exact hs.relink hspaced

theorem mem_setLink_of_ne {a : ℕ} (ha : ∀ b ∈ as, a ≠ b.addr + 8) :
    (h.setLink (linkOf none as) q).mem a = h.mem a := by
  rcases eq_nil_or_concat as with rfl | ⟨as, b, rfl⟩
  · rfl
  · rw [concat_eq_append] at ha ⊢
    rw [linkOf_concat]
    exact update_of_ne (ha b (by simp)) _ _

theorem freeSeg_splice (has : FreeSeg h.mem h.freeList as q) (hspaced : Spaced as)
    (hbs : FreeSeg h.mem q' bs 0) (hab : ∀ a ∈ as, ∀ b ∈ bs, a.addr + 16 ≤ b.addr) :
    FreeSeg (h.setLink (linkOf none as) q').mem (h.setLink (linkOf none as) q').freeList
      (as ++ bs) 0 := by
  refine freeSeg_append.mpr ⟨q', freeSeg_setLink has hspaced, hbs.congr fun b hb => ?_⟩
  have hclear : ∀ a ∈ as, a.addr + 16 ≤ b.addr := fun a ha => hab a ha b hb
  constructor
  · apply mem_setLink_of_ne
    intro a ha
    have := hclear a ha
    omega
  · apply mem_setLink_of_ne
    intro a ha
    have := hclear a ha
    omega

/-- A tile is linked between the free tiles before and behind it. -/
theorem freeSeg_link {c : Tile} (has : FreeSeg h.mem h.freeList as q) (hspaced : Spaced as)
    (hbs : FreeSeg h.mem q' bs 0) (hbefore : ∀ a ∈ as, a.addr + 16 ≤ c.addr)
    (hbehind : ∀ b ∈ bs, c.addr + 16 ≤ b.addr) :
    let h' := ((h.store c.addr c.size).store (c.addr + 8) q').setLink (linkOf none as) c.addr
    FreeSeg h'.mem h'.freeList (as ++ c :: bs) 0 := by
  have hstore : ∀ {p r ds}, FreeSeg h.mem p ds r →
      (∀ d ∈ ds, d.addr + 16 ≤ c.addr ∨ c.addr + 16 ≤ d.addr) →
      FreeSeg ((h.store c.addr c.size).store (c.addr + 8) q').mem p ds r := by
    intro p r ds hs hclear
    refine (hs.store fun d hd => ?_).store fun d hd => ?_
    · have := hclear d hd
      omega
    · have := hclear d hd
      omega
  refine freeSeg_splice (hstore has fun a ha => .inl (hbefore a ha)) hspaced ⟨rfl, ?_, ?_⟩
    fun a ha b hb => ?_
  · exact (update_of_ne (by omega) _ _).trans (update_self _ _ _)
  · rw [show ((h.store c.addr c.size).store (c.addr + 8) q').mem (c.addr + 8) = q' from
      update_self _ _ _]
    exact hstore hbs fun b hb => .inr (hbehind b hb)
  · have := hbefore a ha
    rcases mem_cons.mp hb with rfl | hb
    · exact this
    · have := hbehind b hb
      omega

theorem findFit_of_fit {need n : ℕ} {prev : Option ℕ} (hs : FreeSeg h.mem p (as ++ b :: bs) q)
    (hpos : ∀ a ∈ as ++ b :: bs, a.addr ≠ 0) (hsmall : ∀ a ∈ as, a.size < need)
    (hfit : need ≤ b.size) (hn : as.length < n) :
    h.findFit need n prev p = some (some (linkOf prev as, b.addr)) := by
  induction as generalizing p prev n with
  | nil =>
    obtain ⟨n, rfl⟩ : ∃ m, n = m + 1 := ⟨n - 1, by omega⟩
    obtain ⟨rfl, hsize, -⟩ := hs
    rw [findFit, if_neg (hpos b (by simp)), hsize, if_pos hfit]
    rfl
  | cons a as ih =>
    obtain ⟨n, rfl⟩ : ∃ m, n = m + 1 := ⟨n - 1, by omega⟩
    obtain ⟨rfl, hsize, hrest⟩ := hs
    have hlt := hsmall a mem_cons_self
    rw [findFit, if_neg (hpos a (by simp)), hsize, if_neg (by omega)]
    exact ih hrest (fun c hc => hpos c (mem_cons_of_mem a hc))
      (fun c hc => hsmall c (mem_cons_of_mem a hc)) (by simpa using hn)

theorem findFit_of_none {need n : ℕ} {prev : Option ℕ} (hs : FreeSeg h.mem p bs 0)
    (hpos : ∀ b ∈ bs, b.addr ≠ 0) (hsmall : ∀ b ∈ bs, b.size < need) (hn : bs.length < n) :
    h.findFit need n prev p = some none := by
  induction bs generalizing p prev n with
  | nil =>
    obtain ⟨n, rfl⟩ : ∃ m, n = m + 1 := ⟨n - 1, by omega⟩
    obtain rfl := hs
    exact if_pos rfl
  | cons b bs ih =>
    obtain ⟨n, rfl⟩ : ∃ m, n = m + 1 := ⟨n - 1, by omega⟩
    obtain ⟨rfl, hsize, hrest⟩ := hs
    have hlt := hsmall b mem_cons_self
    rw [findFit, if_neg (hpos b mem_cons_self), hsize, if_neg (by omega)]
    exact ih hrest (fun c hc => hpos c (mem_cons_of_mem b hc))
      (fun c hc => hsmall c (mem_cons_of_mem b hc)) (by simpa using hn)

theorem findPlace_eq {block n : ℕ} {prev : Option ℕ} (hs : FreeSeg h.mem p (as ++ bs) 0)
    (hpos : ∀ a ∈ as, a.addr ≠ 0) (hbelow : ∀ a ∈ as, a.addr < block)
    (habove : ∀ b ∈ bs, block ≤ b.addr) (hn : as.length < n) :
    h.findPlace block n prev p = some (linkOf prev as, startOf bs 0) := by
  induction as generalizing p prev n with
  | nil =>
    obtain ⟨n, rfl⟩ : ∃ m, n = m + 1 := ⟨n - 1, by omega⟩
    have hp : p = startOf bs 0 := hs.start
    have hstop : ¬ (p ≠ 0 ∧ p < block) := by
      cases bs with
      | nil => exact fun hc => hc.1 hp
      | cons b bs =>
        have hle := habove b mem_cons_self
        have hpb : p = b.addr := hp
        omega
    rw [findPlace, if_neg hstop, hp]
    rfl
  | cons a as ih =>
    obtain ⟨n, rfl⟩ : ∃ m, n = m + 1 := ⟨n - 1, by omega⟩
    obtain ⟨rfl, -, hrest⟩ := hs
    rw [findPlace, if_pos ⟨hpos a mem_cons_self, hbelow a mem_cons_self⟩]
    exact ih hrest (fun c hc => hpos c (mem_cons_of_mem a hc))
      (fun c hc => hbelow c (mem_cons_of_mem a hc)) (by simpa using hn)

theorem findLinkTo_eq {c : Tile} {n : ℕ} (hs : FreeSeg h.mem p (as ++ b :: c :: bs) q)
    (hpos : ∀ a ∈ as ++ [b], a.addr ≠ 0) (hne : ∀ a ∈ as ++ [b], a.addr ≠ c.addr)
    (hn : as.length < n) : h.findLinkTo c.addr n p = some b.addr := by
  induction as generalizing p n with
  | nil =>
    obtain ⟨n, rfl⟩ : ∃ m, n = m + 1 := ⟨n - 1, by omega⟩
    obtain ⟨rfl, -, hc, -⟩ := hs
    rw [findLinkTo, if_neg fun hcond => hcond.2 hc]
  | cons a as ih =>
    obtain ⟨n, rfl⟩ : ∃ m, n = m + 1 := ⟨n - 1, by omega⟩
    obtain ⟨rfl, -, hrest⟩ := hs
    have hnext : h.mem (a.addr + 8) ≠ c.addr := by
      rw [hrest.start]
      cases as with
      | nil => exact hne b (by simp)
      | cons d as => exact hne d (by simp)
    rw [findLinkTo, if_pos ⟨hpos a (by simp), hnext⟩]
    exact ih hrest (fun d hd => hpos d (mem_cons_of_mem a hd))
      (fun d hd => hne d (mem_cons_of_mem a hd)) (by simpa using hn)

end SageOS
