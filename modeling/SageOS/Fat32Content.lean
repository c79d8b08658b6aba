import SageOS.Fat32File

/-!
# The bytes of a list of sectors

Reading over a list of sectors gives a slice of their bytes, and writing over a list of different
sectors puts the data over them at the number of bytes to skip; it changes no other sector.
-/
namespace SageOS
open List

def content (d : Disk) (l : List ℕ) : Bytes := l.flatMap fun lba => sectorBytes (d lba)

/-- The data over the bytes from `off` on, as far as they reach. -/
def overlay (old : Bytes) (off : ℕ) (data : Bytes) : Bytes :=
  old.take off ++ data.take (old.length - off) ++ old.drop (off + data.length)

@[simp] theorem length_sectorBytes (s : Sector) : (sectorBytes s).length = 512 := by
  unfold sectorBytes
  rw [length_map, length_range]

theorem content_cons (d : Disk) (lba : ℕ) (l : List ℕ) :
    content d (lba :: l) = sectorBytes (d lba) ++ content d l := rfl

theorem content_append (d : Disk) (l l' : List ℕ) :
    content d (l ++ l') = content d l ++ content d l' := flatMap_append

variable {l : List ℕ}

theorem content_congr {d d' : Disk} (h : ∀ lba ∈ l, d' lba = d lba) :
    content d' l = content d l := by
  induction l with
  | nil => rfl
  | cons a l ih =>
    rw [content_cons, content_cons, h a mem_cons_self,
      ih fun lba hl => h lba (mem_cons_of_mem a hl)]

theorem length_content (d : Disk) (l : List ℕ) : (content d l).length = 512 * l.length := by
  induction l with
  | nil => rfl
  | cons a l ih =>
    rw [content_cons, length_append, length_sectorBytes, ih, length_cons]
    omega

theorem foldl_readSector (d : Disk) (size : ℕ) (l : List ℕ) (st : ReadState) :
    (l.foldl (readSector d size) st).out =
      st.out ++ ((content d l).drop st.skip).take (size - st.out.length) := by
  induction l generalizing st with
  | nil => simp [content]
  | cons lba l ih =>
    have hlen := length_sectorBytes (d lba)
    rw [foldl_cons, ih, content_cons]
    unfold readSector
    split_ifs with hdone hskip
    · rw [Nat.sub_eq_zero_of_le hdone, take_zero, take_zero]
    · have hdrop : (sectorBytes (d lba) ++ content d l).drop st.skip =
          (content d l).drop (st.skip - 512) := by
        rw [drop_append, hlen, drop_eq_nil_of_le (by omega), nil_append]
      rw [hdrop]
    · have hdrop : (sectorBytes (d lba) ++ content d l).drop st.skip =
          (sectorBytes (d lba)).drop st.skip ++ content d l :=
        drop_append_of_le_length (by omega)
      rw [hdrop, take_append, length_drop, hlen]
      rw [drop_zero, append_assoc, length_append, length_take, length_drop, hlen]
      congr 3
      omega

variable {off : ℕ}

theorem sectorBytes_patchSector (s : Sector) (hoff : off ≤ 512) (data : Bytes) :
    sectorBytes (patchSector s off data) = overlay (sectorBytes s) off data := by
  unfold overlay
  apply ext_getElem?
  intro i
  unfold sectorBytes patchSector
  simp only [getElem?_append, getElem?_take, getElem?_drop, length_take,
    length_map, length_range, getElem?_map]
  grind

variable {st : WriteState}

theorem writeSector_done (h : st.rest = []) (lba : ℕ) : writeSector st lba = st := if_pos h

theorem writeSector_skip (hrest : st.rest ≠ []) (hskip : 512 ≤ st.skip)
    (lba : ℕ) : writeSector st lba = { st with skip := st.skip - 512 } := by
  unfold writeSector
  rw [if_neg hrest, if_pos hskip]

theorem writeSector_store (hrest : st.rest ≠ []) (hskip : st.skip < 512)
    (lba : ℕ) : ∃ s, sectorBytes s = overlay (sectorBytes (st.disk lba)) st.skip st.rest ∧
      writeSector st lba = {
        disk := Function.update st.disk lba s
        skip := 0
        rest := st.rest.drop (512 - st.skip) } := by
  unfold writeSector
  rw [if_neg hrest, if_neg (by omega)]
  refine ⟨_, ?_, rfl⟩
  rw [sectorBytes_patchSector _ (by omega)]
  split_ifs with hread
  · rfl
  · push Not at hread
    unfold overlay
    rw [hread.1, length_sectorBytes, length_sectorBytes, take_zero, take_zero,
      drop_eq_nil_of_le (by rw [length_sectorBytes]; omega),
      drop_eq_nil_of_le (by rw [length_sectorBytes]; omega)]

theorem writeSector_of_ne (st : WriteState) {lba lba' : ℕ} (h : lba' ≠ lba) :
    (writeSector st lba).disk lba' = st.disk lba' := by
  by_cases hrest : st.rest = []
  · rw [writeSector_done hrest]
  rcases Nat.lt_or_ge st.skip 512 with hskip | hskip
  · obtain ⟨s, -, hst⟩ := writeSector_store hrest hskip lba
    rw [hst]
    exact Function.update_of_ne h _ _
  · rw [writeSector_skip hrest hskip]

theorem foldl_writeSector_of_notMem (st : WriteState) {lba : ℕ} (h : lba ∉ l) :
    (l.foldl writeSector st).disk lba = st.disk lba := by
  induction l generalizing st with
  | nil => rfl
  | cons a l ih =>
    rw [foldl_cons, ih _ fun hmem => h (mem_cons_of_mem a hmem)]
    exact writeSector_of_ne st fun heq => h (heq ▸ mem_cons_self)

theorem foldl_writeSector_rest (l : List ℕ) (st : WriteState) :
    (l.foldl writeSector st).rest = st.rest.drop (512 * l.length - st.skip) := by
  induction l generalizing st with
  | nil => simp
  | cons a l ih =>
    rw [foldl_cons, ih, length_cons]
    by_cases hrest : st.rest = []
    · rw [writeSector_done hrest, hrest, drop_nil, drop_nil]
    rcases Nat.lt_or_ge st.skip 512 with hskip | hskip
    · obtain ⟨s, -, hst⟩ := writeSector_store hrest hskip a
      rw [hst]
      rw [drop_drop, show 512 - st.skip + (512 * l.length - 0) =
        512 * (l.length + 1) - st.skip by omega]
    · rw [writeSector_skip hrest hskip]
      rw [show 512 * l.length - (st.skip - 512) = 512 * (l.length + 1) - st.skip by omega]

theorem overlay_append_of_le {a b : Bytes} (h : a.length ≤ off) (data : Bytes) :
    overlay (a ++ b) off data = a ++ overlay b (off - a.length) data := by
  unfold overlay
  rw [take_append, take_of_length_le h, drop_append,
    drop_eq_nil_of_le (by omega), nil_append, length_append, append_assoc,
    append_assoc, append_assoc]
  congr 3
  · congr 1
    omega
  · congr 1
    omega

theorem overlay_append_of_lt {a b : Bytes} (h : off ≤ a.length) (data : Bytes) :
    overlay (a ++ b) off data = overlay a off data ++ overlay b 0 (data.drop (a.length - off)) := by
  unfold overlay
  rw [take_append_of_le_length h, length_append, drop_append, length_drop,
    show a.length + b.length - off = a.length - off + b.length by omega, take_add,
    show 0 + (data.length - (a.length - off)) = off + data.length - a.length by omega]
  rcases Nat.le_total data.length (a.length - off) with hle | hle
  · rw [drop_eq_nil_of_le hle]
    simp
  · rw [drop_eq_nil_of_le (show a.length ≤ off + data.length by omega)]
    simp

theorem overlay_nil (old : Bytes) (off : ℕ) : overlay old off [] = old := by
  unfold overlay
  rw [take_nil, append_nil, length_nil, Nat.add_zero, take_append_drop]

theorem content_foldl_writeSector (hl : l.Nodup) (st : WriteState) :
    content (l.foldl writeSector st).disk l = overlay (content st.disk l) st.skip st.rest := by
  induction l generalizing st with
  | nil => simp [content, overlay]
  | cons lba l ih =>
    obtain ⟨hnot, hl⟩ := nodup_cons.mp hl
    have hlen := length_sectorBytes (st.disk lba)
    have htail : content (writeSector st lba).disk l = content st.disk l :=
      content_congr fun a ha => writeSector_of_ne st fun heq => hnot (heq ▸ ha)
    rw [foldl_cons, content_cons, content_cons, foldl_writeSector_of_notMem _ hnot, ih hl, htail]
    by_cases hrest : st.rest = []
    · rw [writeSector_done hrest, hrest, overlay_nil, overlay_nil]
    rcases Nat.lt_or_ge st.skip 512 with hskip | hskip
    · obtain ⟨s, hs, hst⟩ := writeSector_store hrest hskip lba
      rw [overlay_append_of_lt (by omega), hlen, ← hs, hst]
      dsimp only
      rw [Function.update_self]
    · rw [overlay_append_of_le (by omega), hlen, writeSector_skip hrest hskip]

end SageOS
