import SageOS.MountRouter

/-!
# Mount resolution by components

The mount that serves a path is the first active one among those whose components are the longest
initial part of the path's components. The kernel finds it by comparing bytes: on normalised paths
a byte prefix that ends at a slash or at the end is a component prefix, and among the prefixes of
one path more components mean more bytes.
-/
namespace SageOS
open List
variable {σ : Type}

/-- A path in normal form, as a terminated string. -/
def IsNormal (p : Bytes) : Prop :=
  p = [slash] ∨ ∃ parts ≠ [], p = joinParts parts ∧ ∀ c ∈ parts, c ≠ [] ∧ slash ∉ c ∧ 0 ∉ c

theorem components_root : components [slash] = [] := components_slash_cons []

theorem components_of_joinParts {parts : List Bytes}
    (h : ∀ c ∈ parts, c ≠ [] ∧ slash ∉ c ∧ 0 ∉ c) : components (joinParts parts) = parts :=
  components_joinParts parts fun c hc => ⟨(h c hc).1, (h c hc).2.1⟩

variable {p : Bytes}

theorem IsNormal.eq_joinParts (h : IsNormal p) (hroot : p ≠ [slash]) :
    p = joinParts (components p) ∧ components p ≠ [] := by
  obtain ⟨parts, hne, rfl, hparts⟩ := h.resolve_left hroot
  rw [components_of_joinParts hparts]
  exact ⟨rfl, hne⟩

theorem IsNormal.nul_free (h : IsNormal p) : 0 ∉ p := by
  rcases h with rfl | ⟨parts, -, rfl, hparts⟩
  · decide
  · intro hmem
    obtain ⟨c, hc, hz⟩ := mem_flatMap.mp hmem
    rcases mem_cons.mp hz with hz | hz
    · exact absurd hz (by decide)
    · exact (hparts c hc).2.2 hz

theorem IsNormal.head (h : IsNormal p) : ∃ q, p = slash :: q := by
  rcases h with rfl | ⟨parts, hne, rfl, -⟩
  · exact ⟨[], rfl⟩
  · obtain ⟨c, cs, rfl⟩ := exists_cons_of_ne_nil hne
    exact ⟨c ++ joinParts cs, rfl⟩

theorem joinParts_eq_nil_or_cons (parts : List Bytes) :
    joinParts parts = [] ∨ ∃ q, joinParts parts = slash :: q := by
  cases parts with
  | nil => exact .inl rfl
  | cons c cs => exact .inr ⟨c ++ joinParts cs, rfl⟩

/-- The bytes of a mount path followed by a boundary. -/
def BoundaryPrefix (mp p : Bytes) : Prop :=
  ∃ rest, p = mp ++ rest ∧ (rest = [] ∨ ∃ q, rest = slash :: q)

theorem boundaryPrefix_iff {mp p : Bytes} (hmp : IsNormal mp) (hp : IsNormal p)
    (hroot : mp ≠ [slash]) : BoundaryPrefix mp p ↔ components mp <+: components p := by
  obtain ⟨hjoin, hne⟩ := hmp.eq_joinParts hroot
  constructor
  · rintro ⟨rest, rfl, hrest | ⟨q, rfl⟩⟩
    · rw [hrest, append_nil]
    · rw [components_append_slash]
      exact prefix_append _ _
  · rintro ⟨more, hmore⟩
    have hproot : p ≠ [slash] := by
      rintro rfl
      exact hne (append_eq_nil_iff.mp hmore).1
    refine ⟨joinParts more, ?_, joinParts_eq_nil_or_cons more⟩
    calc p = joinParts (components p) := (hp.eq_joinParts hproot).1
      _ = joinParts (components mp) ++ joinParts more := by rw [← hmore, joinParts_append]
      _ = mp ++ joinParts more := by rw [← hjoin]

theorem boundaryPrefix_iff_bytes {mp p : Bytes} (hz : 0 ∉ mp) :
    BoundaryPrefix mp p ↔ (mp.length ≤ p.length ∧ strncmp p mp mp.length = 0) ∧
      (p.length = mp.length ∨ p.getD mp.length 0 = slash) := by
  rw [strncmp_length_eq_zero_iff p mp hz]
  constructor
  · rintro ⟨rest, rfl, rfl | ⟨q, rfl⟩⟩
    · simp
    · exact ⟨⟨by simp, prefix_append _ _⟩, .inr (by simp)⟩
  · rintro ⟨⟨-, rest, rfl⟩, hend⟩
    refine ⟨rest, rfl, ?_⟩
    cases rest with
    | nil => exact .inl rfl
    | cons x q =>
      rcases hend with hlen | hslash
      · simp at hlen
      · right
        have hx : x = slash := by simpa using hslash
        exact ⟨q, by rw [hx]⟩

variable {m : VfsMount σ}

theorem mountMatches_iff (hm : IsNormal m.path) (hp : IsNormal p) :
    mountMatches p m = true ↔ m.active = true ∧ components m.path <+: components p := by
  unfold mountMatches
  rw [Bool.and_eq_true]
  apply and_congr_right
  intro _
  by_cases hroot : m.path = [slash]
  · simp [hroot]
  · rw [← boundaryPrefix_iff hm hp hroot, boundaryPrefix_iff_bytes hm.nul_free]
    simp [hroot]

theorem length_lt_of_components_prefix {a b : Bytes} (ha : IsNormal a) (hb : IsNormal b)
    (hpre : components a <+: components b)
    (hlt : (components a).length < (components b).length) : a.length < b.length := by
  have hbroot : b ≠ [slash] := by
    rintro rfl
    exact absurd hlt (Nat.not_lt_zero _)
  obtain ⟨hbjoin, -⟩ := hb.eq_joinParts hbroot
  obtain ⟨more, hmore⟩ := hpre
  have hne : more ≠ [] := by
    rintro rfl
    rw [← hmore, append_nil] at hlt
    exact lt_irrefl _ hlt
  obtain ⟨c, cs, rfl⟩ := exists_cons_of_ne_nil hne
  have hc : c ≠ [] := by
    have hmem : c ∈ components b := by
      rw [← hmore]
      simp
    exact (ne_nil_and_slash_notMem_of_mem_components hmem).1
  have hlong : 2 ≤ (joinParts (c :: cs)).length := by
    have hpos := length_pos_iff.mpr hc
    change 2 ≤ (slash :: (c ++ joinParts cs)).length
    rw [length_cons, length_append]
    omega
  have hlen : b.length = (joinParts (components a)).length + (joinParts (c :: cs)).length := by
    rw [hbjoin, ← hmore, joinParts_append, length_append]
  by_cases haroot : a = [slash]
  · rw [hlen, haroot, length_singleton]
    omega
  · have halen : (joinParts (components a)).length = a.length :=
      congrArg List.length (ha.eq_joinParts haroot).1.symm
    omega

theorem length_lt_iff_components {a b p : Bytes} (ha : IsNormal a) (hb : IsNormal b)
    (hap : components a <+: components p) (hbp : components b <+: components p) :
    a.length < b.length ↔ (components a).length < (components b).length := by
  constructor
  · intro hlt
    by_contra hge
    have hpre : components b <+: components a :=
      prefix_of_prefix_length_le hbp hap (by omega)
    rcases Nat.lt_or_eq_of_le (not_lt.mp hge) with hless | heq
    · have := length_lt_of_components_prefix hb ha hpre hless
      omega
    · have hcomp : components b = components a := hpre.eq_of_length heq
      have hab : a = b := by
        by_cases hroot : a = [slash]
        · by_contra hne
          rw [hroot, components_root] at hcomp
          exact (hb.eq_joinParts fun hbr => hne (hroot.trans hbr.symm)).2 hcomp
        · have hbroot : b ≠ [slash] := by
            rintro rfl
            exact (ha.eq_joinParts hroot).2 hcomp.symm
          rw [(ha.eq_joinParts hroot).1, (hb.eq_joinParts hbroot).1, hcomp]
      rw [hab] at hlt
      exact lt_irrefl _ hlt
  · intro hlt
    exact length_lt_of_components_prefix ha hb (prefix_of_prefix_length_le hap hbp hlt.le) hlt

/-- The mount whose components are a prefix of those of the path. -/
def VfsMount.Covers (m : VfsMount σ) (p : Bytes) : Prop :=
  m.active = true ∧ components m.path <+: components p

/-- What a resolved mount and the rest of the path are. -/
structure Serves (mounts : List (VfsMount σ)) (p : Bytes) (m : VfsMount σ) (rel : Bytes) :
    Prop where
  covers : m.Covers p
  longest : ∀ m' ∈ mounts, m'.Covers p →
    (components m'.path).length ≤ (components m.path).length
  first : ∃ before after, mounts = before ++ m :: after ∧ ∀ m' ∈ before, m'.Covers p →
    (components m'.path).length < (components m.path).length
  absolute : ∃ q, rel = slash :: q
  names : if m.path = [slash] then rel = p else components (m.path ++ rel) = components p

theorem relativePath_names (hm : IsNormal m.path) (hp : IsNormal p) (hcovers : m.Covers p) :
    (∃ q, relativePath p m = slash :: q) ∧
      if m.path = [slash] then relativePath p m = p
      else components (m.path ++ relativePath p m) = components p := by
  unfold relativePath
  by_cases hroot : m.path = [slash]
  · rw [if_pos hroot, if_pos hroot]
    exact ⟨hp.head, rfl⟩
  · rw [if_neg hroot, if_neg hroot]
    obtain ⟨rest, hrest, hend⟩ := (boundaryPrefix_iff hm hp hroot).mpr hcovers.2
    by_cases hlen : p.length = m.path.length
    · have hnil : rest = [] := by
        rw [hrest, length_append] at hlen
        exact eq_nil_of_length_eq_zero (by omega)
      rw [if_pos hlen, components_append_slash, hrest, hnil, append_nil, components_nil, append_nil]
      exact ⟨⟨[], rfl⟩, rfl⟩
    · rw [if_neg hlen, hrest, drop_left]
      refine ⟨hend.resolve_left fun hnil => hlen ?_, rfl⟩
      rw [hrest, hnil, append_nil]

/-- Resolution by bytes is resolution by components. -/
theorem resolveMount_by_components {mounts : List (VfsMount σ)} {p : Bytes}
    (hmounts : ∀ m ∈ mounts, IsNormal m.path) (hp : IsNormal p) :
    (resolveMount mounts p = none ↔ ∀ m ∈ mounts, ¬ m.Covers p) ∧
      ∀ m rel, resolveMount mounts p = some (m, rel) → Serves mounts p m rel := by
  have hmatch (m : VfsMount σ) (hm : m ∈ mounts) : mountMatches p m = true ↔ m.Covers p :=
    mountMatches_iff (hmounts m hm) hp
  unfold resolveMount
  refine ⟨?_, ?_⟩
  · rw [Option.map_eq_none_iff]
    constructor
    · intro hnone m hm hcovers
      have hno := bestMount_eq_none hnone m hm
      rw [(hmatch m hm).mpr hcovers] at hno
      cases hno
    · intro hno
      cases hb : bestMount p mounts with
      | none => rfl
      | some m =>
        obtain ⟨hm, hmm, -⟩ := bestMount_spec hb
        exact absurd ((hmatch m hm).mp hmm) (hno m hm)
  · intro m rel hres
    obtain ⟨b, hb, heq⟩ := Option.map_eq_some_iff.mp hres
    obtain ⟨rfl, rfl⟩ := Prod.mk.inj heq
    obtain ⟨hm, hmm, hmax, before, after, hsplit, hbefore⟩ := bestMount_spec hb
    have hcovers := (hmatch b hm).mp hmm
    obtain ⟨habs, hnames⟩ := relativePath_names (hmounts b hm) hp hcovers
    refine ⟨hcovers, fun m' hm' hc' => ?_, ⟨before, after, hsplit, fun m' hm' hc' => ?_⟩, habs,
      hnames⟩
    · have hle := hmax m' hm' ((hmatch m' hm').mpr hc')
      have hiff := length_lt_iff_components (hmounts b hm) (hmounts m' hm') hcovers.2 hc'.2
      by_contra hgt
      omega
    · have hmem : m' ∈ mounts := by
        rw [hsplit]
        exact mem_append_left _ hm'
      exact (length_lt_iff_components (hmounts m' hmem) (hmounts b hm) hc'.2 hcovers.2).mp
        (hbefore m' hm' ((hmatch m' hmem).mpr hc'))

def sampleMounts : List (VfsMount Unit) :=
  [⟨bytes "/", {}, true⟩, ⟨bytes "/mnt", {}, false⟩, ⟨bytes "/mnt", {}, true⟩]

theorem sample_path_served :
    Serves sampleMounts (bytes "/mnt/a") ⟨bytes "/mnt", {}, true⟩ (bytes "/a") := by
  have hmnt : IsNormal (bytes "/mnt") := .inr ⟨[bytes "mnt"], by decide, rfl, by decide +kernel⟩
  have hmounts : ∀ m ∈ sampleMounts, IsNormal m.path := by
    intro m hm
    rcases mem_cons.mp hm with rfl | hm
    · exact .inl rfl
    · rcases mem_cons.mp hm with rfl | hm
      · exact hmnt
      · rw [mem_singleton.mp hm]
        exact hmnt
  have hpath : IsNormal (bytes "/mnt/a") :=
    .inr ⟨[bytes "mnt", bytes "a"], by decide, rfl, by decide +kernel⟩
  exact (resolveMount_by_components hmounts hpath).2 _ _ rfl

end SageOS
