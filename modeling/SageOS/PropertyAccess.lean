import SageOS.MetalStep

/-!
# Properties and indices of dictionaries

`d.x` and `d['x']` reach a dictionary under different keys: the property instructions take their
operand, the number of the name among the constants of the running function, and the index
instructions the offset of the interned string. Both forms agree in exactly those programs in which
keys are equal when names are, and whose keys fit into a dictionary.
-/
namespace SageOS
open List
namespace MetalHeap

variable {entries : List (ℤ × MetalValue)} {key : ℤ} {v : MetalValue}

theorem find?_of_notMem (h : key ∉ entries.map (·.1)) : entries.find? (·.1 = key) = none := by
  rw [find?_eq_none]
  exact fun e he heq => h (mem_map.mpr ⟨e, he, of_decide_eq_true heq⟩)

theorem set_spec {i : ℕ} (h : entries.findIdx? (·.1 = key) = some i) :
    (entries.set i (key, v)).map (·.1) = entries.map (·.1) ∧
      ∀ key', (entries.set i (key, v)).find? (·.1 = key') =
        if key = key' then some (key, v) else entries.find? (·.1 = key') := by
  induction entries generalizing i with
  | nil => cases h
  | cons e es ih =>
    rw [findIdx?_cons] at h
    by_cases he : e.1 = key
    · rw [if_pos (by simpa using he)] at h
      obtain rfl := Option.some.inj h
      grind
    · rw [if_neg (by simpa using he)] at h
      obtain ⟨j, hj, rfl⟩ := Option.map_eq_some_iff.mp h
      obtain ⟨hkeys, hfind⟩ := ih hj
      refine ⟨by simp [hkeys], fun key' => ?_⟩
      rw [set_cons_succ, find?_cons, hfind, find?_cons]
      by_cases hk : e.1 = key'
      · have hne : key ≠ key' := fun h => he (hk.trans h.symm)
        simp [hk, hne]
      · simp [hk]

theorem dictStore_spec (hroom : key ∉ entries.map (·.1) → entries.length < metalDictMaxEntries) :
    (dictStore entries key v).map (·.1) =
        (if key ∈ entries.map (·.1) then entries.map (·.1) else entries.map (·.1) ++ [key]) ∧
      ∀ key', (dictStore entries key v).find? (·.1 = key') =
        if key = key' then some (key, v) else entries.find? (·.1 = key') := by
  have hmem : (entries.findIdx? (·.1 = key)).isSome = true ↔ key ∈ entries.map (·.1) := by
    simp [findIdx?_isSome]
  unfold dictStore
  cases hfind : entries.findIdx? (·.1 = key) with
  | some i =>
    rw [if_pos (hmem.mp (by rw [hfind]; rfl))]
    exact set_spec hfind
  | none =>
    have hnot : key ∉ entries.map (·.1) := fun hin => by
      have := hmem.mpr hin
      simp [hfind] at this
    dsimp only
    rw [if_pos (hroom hnot), if_neg hnot]
    refine ⟨by simp, fun key' => ?_⟩
    by_cases heq : key = key'
    · subst heq
      simp [find?_of_notMem hnot]
    · simp [heq]

end MetalHeap

/-- A place of a program where a dictionary is reached by a name: the constants of its function, the
number of the name among them, and the form. -/
structure DictAccess where
  constants : ConstPool
  operand : ℕ
  indexed : Bool

namespace DictAccess

def constant (a : DictAccess) : MetalValue := a.constants.decoded.getD a.operand {}

def key (a : DictAccess) : ℤ := if a.indexed then a.constant.int else a.operand

def name (strings : Bytes) (a : DictAccess) : Bytes := metalStringGet strings a.constant.int

def write (dict : ℤ) (h : MetalHeap) (w : DictAccess × MetalValue) : MetalHeap :=
  h.metalDictSet dict w.1.key w.2

def lastWritten (strings : Bytes) (writes : List (DictAccess × MetalValue)) (x : Bytes) :
    MetalValue :=
  ((writes.reverse.find? (·.1.name strings = x)).map (·.2)).getD mvNil

/-- In a dictionary that was empty, every read gives the value last written under its name. -/
def Agree (strings : Bytes) (program : Set DictAccess) : Prop :=
  ∀ (h : MetalHeap) (i : ℕ), i < metalPoolMax → (h.dicts i).entries = [] →
    ∀ writes : List (DictAccess × MetalValue), (∀ w ∈ writes, w.1 ∈ program) → ∀ a ∈ program,
      (writes.foldl (write i) h).metalDictGet i a.key = lastWritten strings writes (a.name strings)

/-- Equal names have equal keys and conversely, and a dictionary has room for all keys. -/
structure Keyed (strings : Bytes) (program : Set DictAccess) : Prop where
  key_iff : ∀ a ∈ program, ∀ b ∈ program, a.key = b.key ↔ a.name strings = b.name strings
  room : ∀ l : List DictAccess, (∀ a ∈ l, a ∈ program) → (l.map key).Nodup →
    l.length ≤ metalDictMaxEntries

section Instructions
open MetalVM Checked
variable {a : DictAccess} {host : MetalHost} {obj v : MetalValue} {vm vm₁ vm₂ vm₃ : MetalVM}

theorem goOn_bind_of {α : Type} {m : Run α} {x : α} (h : m vm = some (x, vm₁)) (f : α → Run Unit) :
    goOn (m >>= f) vm = goOn (f x) vm₁ := by
  change ((m vm).bind fun p => f p.1 p.2).bind _ = _
  rw [h]
  rfl

variable (hobj : obj.type = .dict)

include hobj

theorem opGetProperty_eq (ha : a.indexed = false) (hread : readU16 vm = some (a.operand, vm₁))
    (herr : vm₁.error = none) (hpop : pop vm₁ = some (obj, vm₂)) :
    opGetProperty vm = goOn (push (vm₂.heap.metalDictGet obj.int a.key)) vm₂ := by
  unfold opGetProperty unlessError key
  rw [run_bind_of hread, run_get_bind, herr, if_neg nofun, goOn_bind_of hpop, if_pos hobj, ha]
  exact goOn_bind_of rfl _

theorem opSetProperty_eq (ha : a.indexed = false) (hread : readU16 vm = some (a.operand, vm₁))
    (herr : vm₁.error = none) (hv : pop vm₁ = some (v, vm₂)) (hpop : pop vm₂ = some (obj, vm₃)) :
    opSetProperty vm = goOn (push v) { vm₃ with heap := write obj.int vm₃.heap (a, v) } := by
  unfold opSetProperty unlessError write key
  rw [run_bind_of hread, run_get_bind, herr, if_neg nofun, goOn_bind_of hv, goOn_bind_of hpop,
    hobj, ha]
  rfl

theorem opGetIndex_eq (ha : a.indexed = true) (hstr : a.constant.type = .str)
    (hidx : pop vm = some (a.constant, vm₁)) (hpop : pop vm₁ = some (obj, vm₂)) :
    opGetIndex host vm = goOn (push (vm₂.heap.metalDictGet obj.int a.key)) vm₂ := by
  unfold opGetIndex key
  rw [goOn_bind_of hidx, goOn_bind_of hpop, hobj, hstr, ha]
  exact goOn_bind_of rfl _

theorem opSetIndex_eq (ha : a.indexed = true) (hstr : a.constant.type = .str)
    (hv : pop vm = some (v, vm₁)) (hidx : pop vm₁ = some (a.constant, vm₂))
    (hpop : pop vm₂ = some (obj, vm₃)) :
    opSetIndex host vm = goOn (push v) { vm₃ with heap := write obj.int vm₃.heap (a, v) } := by
  unfold opSetIndex write key
  rw [goOn_bind_of hv, goOn_bind_of hidx, goOn_bind_of hpop, hobj, hstr, ha]
  rfl

end Instructions

variable {strings : Bytes} {program : Set DictAccess} {h : MetalHeap} {i : ℕ}
  {writes : List (DictAccess × MetalValue)}

theorem lastWritten_concat (w : DictAccess × MetalValue) (x : Bytes) :
    lastWritten strings (writes ++ [w]) x =
      if w.1.name strings = x then w.2 else lastWritten strings writes x := by
  unfold lastWritten
  rw [reverse_concat, find?_cons]
  by_cases hx : w.1.name strings = x
  · simp [hx]
  · simp [hx]

section Written

variable (hi : i < metalPoolMax)

include hi

theorem poolIndex_of_lt : MetalHeap.poolIndex i = some i := if_neg (by omega)

theorem metalDictGet_of_lt (key : ℤ) : h.metalDictGet i key =
    (((h.dicts i).entries.find? (·.1 = key)).map (·.2)).getD mvNil := by
  unfold MetalHeap.metalDictGet
  rw [poolIndex_of_lt hi]

theorem entries_concat (w : DictAccess × MetalValue) :
    (((writes ++ [w]).foldl (write i) h).dicts i).entries =
      MetalHeap.dictStore ((writes.foldl (write i) h).dicts i).entries w.1.key w.2 := by
  rw [foldl_concat]
  unfold write MetalHeap.metalDictSet MetalHeap.setDict
  rw [poolIndex_of_lt hi]
  dsimp only
  rw [Function.update_self]

theorem length_entries_le (hempty : (h.dicts i).entries = []) :
    ((writes.foldl (write i) h).dicts i).entries.length ≤ metalDictMaxEntries := by
  induction writes using reverseRecOn with
  | nil => simp [hempty]
  | append_singleton writes w ih =>
    rw [entries_concat hi]
    unfold MetalHeap.dictStore
    split
    · rwa [length_set]
    · split_ifs with hlt
      · rwa [length_append]
      · exact ih

/-- The keys of the entries are different keys of the program. -/
theorem Keyed.written (hk : Keyed strings program) (hempty : (h.dicts i).entries = [])
    (hwrites : ∀ w ∈ writes, w.1 ∈ program) :
    (∃ l : List DictAccess, (∀ a ∈ l, a ∈ program) ∧ (l.map key).Nodup ∧
      ((writes.foldl (write i) h).dicts i).entries.map (·.1) = l.map key) ∧
    ∀ a ∈ program, (writes.foldl (write i) h).metalDictGet i a.key =
      lastWritten strings writes (a.name strings) := by
  induction writes using reverseRecOn with
  | nil =>
    refine ⟨⟨[], nofun, nodup_nil, by simp [hempty]⟩, fun a _ => ?_⟩
    rw [metalDictGet_of_lt hi, foldl_nil, hempty]
    rfl
  | append_singleton writes w ih =>
    obtain ⟨hold, hw⟩ := forall_mem_append.mp hwrites
    have hw : w.1 ∈ program := hw w mem_cons_self
    obtain ⟨⟨l, hl, hnodup, hkeys⟩, hget⟩ := ih hold
    have hfresh (hnot : w.1.key ∉ l.map key) : (∀ a ∈ l ++ [w.1], a ∈ program) ∧
        ((l ++ [w.1]).map key).Nodup := by
      refine ⟨forall_mem_append.mpr ⟨hl, by simpa using hw⟩, ?_⟩
      rw [map_append]
      exact hnodup.append (nodup_singleton _) (disjoint_singleton.mpr hnot)
    have hroom : w.1.key ∉ ((writes.foldl (write i) h).dicts i).entries.map (·.1) →
        ((writes.foldl (write i) h).dicts i).entries.length < metalDictMaxEntries := by
      intro hnot
      rw [hkeys] at hnot
      have hlen := hk.room _ (hfresh hnot).1 (hfresh hnot).2
      have heq := congrArg length hkeys
      simp only [length_map, length_append, length_singleton] at hlen heq
      omega
    obtain ⟨hkeys', hfind⟩ := MetalHeap.dictStore_spec (v := w.2) hroom
    rw [← entries_concat hi] at hkeys' hfind
    rw [hkeys] at hkeys'
    constructor
    · by_cases hin : w.1.key ∈ l.map key
      · exact ⟨l, hl, hnodup, by rw [hkeys', if_pos hin]⟩
      · exact ⟨_, (hfresh hin).1, (hfresh hin).2, by rw [hkeys', if_neg hin, map_append]; rfl⟩
    · intro a ha
      rw [metalDictGet_of_lt hi, hfind, lastWritten_concat]
      by_cases heq : w.1.key = a.key
      · rw [if_pos heq, if_pos ((hk.key_iff _ hw a ha).mp heq)]
        rfl
      · rw [if_neg heq, if_neg (mt (hk.key_iff _ hw a ha).mpr heq), ← hget a ha,
          metalDictGet_of_lt hi]

end Written

theorem lastWritten_map {l : List DictAccess} {a : DictAccess} (ha : a ∈ l) (v : MetalValue) :
    lastWritten strings (l.map (·, v)) (a.name strings) = v := by
  unfold lastWritten
  cases hfind : (l.map (·, v)).reverse.find? (·.1.name strings = a.name strings) with
  | none => simpa using find?_eq_none.mp hfind (a, v) (by simpa using ha)
  | some w =>
    obtain ⟨b, -, rfl⟩ := mem_map.mp (mem_reverse.mp (mem_of_find?_eq_some hfind))
    rfl

theorem Agree.keyed (hagree : Agree strings program) : Keyed strings program := by
  have hi : 0 < metalPoolMax := by decide
  refine ⟨fun a ha b hb => ?_, fun l hl hkeys => ?_⟩
  · have hread := hagree {} 0 hi rfl ([] ++ [(a, mvBool true)]) (by simpa using ha) b hb
    rw [metalDictGet_of_lt hi, entries_concat hi, (MetalHeap.dictStore_spec fun _ => by decide).2,
      lastWritten_concat] at hread
    by_cases hk : a.key = b.key <;> by_cases hn : a.name strings = b.name strings <;>
      simp [hk, hn, lastWritten, mvBool, mvNil] at hread ⊢
  · have hread := hagree {} 0 hi rfl (l.map (·, mvBool true)) (by simpa using hl)
    set h := (l.map (·, mvBool true)).foldl (write (0 : ℕ)) {}
    have hbound : (h.dicts 0).entries.length ≤ metalDictMaxEntries := length_entries_le hi rfl
    have hsub : l.map key ⊆ (h.dicts 0).entries.map (·.1) := by
      intro k hk
      obtain ⟨a, ha, rfl⟩ := mem_map.mp hk
      have hval := hread a (hl a ha)
      by_contra hnot
      rw [metalDictGet_of_lt hi, lastWritten_map ha, MetalHeap.find?_of_notMem hnot] at hval
      exact absurd hval (by decide)
    have hlen := (hkeys.subperm hsub).length_le
    rw [length_map, length_map] at hlen
    exact hlen.trans hbound

/-- Both forms agree in a program exactly if its keys are those of its names. -/
theorem access_forms_agree_iff (strings : Bytes) (program : Set DictAccess) :
    Agree strings program ↔ Keyed strings program :=
  ⟨Agree.keyed, fun hk _ _ hi hempty _ hwrites => (hk.written hi hempty hwrites).2⟩

/-- The constants are the strings y and x; a value is written by `d.x` and read by `d['x']`. -/
theorem property_write_missed :
    let pool : ConstPool := ⟨[.ofInt .str 0, .ofInt .str 2], 2⟩
    name [121, 0, 120, 0] ⟨pool, 1, false⟩ = [120] ∧
      name [121, 0, 120, 0] ⟨pool, 1, true⟩ = [120] ∧
      (write 0 {} (⟨pool, 1, false⟩, mvBool true)).metalDictGet 0 (key ⟨pool, 1, true⟩) =
        mvNil := by
  decide +kernel

end DictAccess
end SageOS
