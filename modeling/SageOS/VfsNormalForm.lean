import SageOS.BoundedStack
import SageOS.VfsPath

/-!
# The normal form of a path

What normalisation is for: the components of a path are pushed on a stack, `..` pops it, and the
components that are left are joined again. The scanner of the kernel does this with a stack of 32
entries and an output of `VFS_MAX_PATH` bytes, and gives the normal form exactly when neither is
exceeded for good.
-/
namespace SageOS
open BoundedStack List

/-- A path as pushes and pops: empty and `.` components are dropped, `..` pops. -/
def pathOps (p : Bytes) : List (Option Bytes) :=
  ((components p).filter (· ≠ dot)).map fun c => if c = dotdot then none else some c

def pathStack (p : Bytes) : List Bytes := run [] (pathOps p)

def normalForm (p : Bytes) : Bytes :=
  if pathStack p = [] then [slash] else joinParts (pathStack p)

theorem foldl_pushPart_eq (cs parts : List Bytes) :
    cs.foldl pushPart parts = boundedRun maxParts parts
      ((cs.filter (· ≠ dot)).map fun c => if c = dotdot then none else some c) := by
  induction cs generalizing parts with
  | nil => rfl
  | cons c cs ih =>
    rw [foldl_cons, ih]
    unfold pushPart
    by_cases hdot : c = dot
    · rw [if_pos hdot, filter_cons_of_neg (by simp [hdot])]
    · rw [if_neg hdot, filter_cons_of_pos (by simp [hdot]), map_cons]
      by_cases hup : c = dotdot
      · rw [if_pos hup, if_pos hup]
        rfl
      · rw [if_neg hup, if_neg hup]
        rfl

theorem resolveParts_eq (p : Bytes) : resolveParts p = boundedRun maxParts [] (pathOps p) :=
  foldl_pushPart_eq (components p) []

theorem mem_pathStack {p c : Bytes} (hc : c ∈ pathStack p) :
    c ≠ [] ∧ slash ∉ c ∧ c ≠ dot ∧ c ≠ dotdot := by
  have hpush := mem_run hc
  simp only [not_mem_nil, false_or] at hpush
  obtain ⟨d, hd, heq⟩ := mem_map.mp hpush
  obtain ⟨hmem, hdot⟩ := mem_filter.mp hd
  split_ifs at heq with hup
  obtain rfl := Option.some.inj heq
  obtain ⟨hne, hslash⟩ := ne_nil_and_slash_notMem_of_mem_components hmem
  exact ⟨hne, hslash, by simpa using hdot, hup⟩

theorem splitOnP_joinParts {c : Bytes} {parts : List Bytes} (hc : slash ∉ c)
    (hparts : ∀ d ∈ parts, slash ∉ d) :
    (c ++ joinParts parts).splitOnP (· == slash) = c :: parts := by
  induction parts generalizing c with
  | nil =>
    rw [show joinParts [] = [] from rfl, append_nil]
    apply splitOnP_eq_singleton
    intro x hx
    simpa using fun he : x = slash => hc (he ▸ hx)
  | cons d parts ih =>
    have htail := ih (hparts d mem_cons_self) fun e he =>
      hparts e (mem_cons_of_mem d he)
    change (c ++ slash :: (d ++ joinParts parts)).splitOnP (· == slash) = _
    rw [splitOnP_append_cons_of_forall_mem _ _ (by simp), htail]
    intro x hx
    simpa using fun he : x = slash => hc (he ▸ hx)

theorem count_slash_joinParts {parts : List Bytes} (hparts : ∀ c ∈ parts, slash ∉ c) :
    (joinParts parts).count slash = parts.length := by
  induction parts with
  | nil => rfl
  | cons c parts ih =>
    have hc := hparts c mem_cons_self
    have htail := ih fun d hd => hparts d (mem_cons_of_mem c hd)
    change (slash :: (c ++ joinParts parts)).count slash = _
    rw [count_cons_self, count_append, count_eq_zero.mpr hc, htail, length_cons, Nat.zero_add]

/-- Normalisation as it is meant: the normal form, in which nothing is left to normalise. -/
structure Normalises (p : Bytes) : Prop where
  form : vfsNormalizePath p = normalForm p
  fixed : vfsNormalizePath (vfsNormalizePath p) = vfsNormalizePath p
  clean : vfsNormalizePath p ≠ [slash] →
    ∀ c ∈ ((vfsNormalizePath p).drop 1).splitOnP (· == slash), c ≠ [] ∧ c ≠ dot ∧ c ≠ dotdot

variable {p : Bytes}

theorem components_normalForm (p : Bytes) : components (normalForm p) = pathStack p := by
  unfold normalForm
  by_cases hnil : pathStack p = []
  · rw [if_pos hnil, hnil]
    exact components_slash_cons []
  · rw [if_neg hnil]
    exact components_joinParts _ fun c hc => ⟨(mem_pathStack hc).1, (mem_pathStack hc).2.1⟩

theorem vfsNormalizePath_eq_normalForm (hreturns : Returns maxParts [] (pathOps p))
    (hfit : (normalForm p).length < vfsMaxPath) : vfsNormalizePath p = normalForm p := by
  have hparts : resolveParts p = pathStack p := by
    rw [resolveParts_eq]
    exact (boundedRun_eq_run_iff (pathOps p)).mpr hreturns
  unfold vfsNormalizePath normalForm at *
  rw [hparts]
  by_cases hnil : pathStack p = []
  · rw [if_pos hnil, if_pos hnil]
  · rw [if_neg hnil] at hfit ⊢
    rw [if_neg hnil]
    exact take_of_length_le (by omega)

theorem length_pathStack_le (hreturns : Returns maxParts [] (pathOps p)) :
    (pathStack p).length ≤ maxParts := by
  have heq : boundedRun maxParts [] (pathOps p) = pathStack p :=
    (boundedRun_eq_run_iff (pathOps p)).mpr hreturns
  rw [← heq]
  exact length_boundedRun_le (Nat.zero_le _) _

theorem pathOps_normalForm (p : Bytes) : pathOps (normalForm p) = (pathStack p).map some := by
  unfold pathOps
  rw [components_normalForm, filter_eq_self.mpr fun c hc => by
    simpa using (mem_pathStack hc).2.2.1]
  apply map_congr_left
  intro c hc
  exact if_neg (mem_pathStack hc).2.2.2

theorem vfsNormalizePath_normalForm (hreturns : Returns maxParts [] (pathOps p))
    (hfit : (normalForm p).length < vfsMaxPath) :
    vfsNormalizePath (normalForm p) = normalForm p := by
  have hparts : resolveParts (normalForm p) = pathStack p := by
    rw [resolveParts_eq, pathOps_normalForm, boundedRun_map_some]
    · rfl
    · rw [length_nil, Nat.zero_add]
      exact length_pathStack_le hreturns
  unfold vfsNormalizePath
  rw [hparts]
  unfold normalForm at hfit ⊢
  by_cases hnil : pathStack p = []
  · rw [if_pos hnil, if_pos hnil]
  · rw [if_neg hnil] at hfit ⊢
    rw [if_neg hnil]
    exact take_of_length_le (by omega)

theorem clean_normalForm (h : normalForm p ≠ [slash]) :
    ∀ c ∈ ((normalForm p).drop 1).splitOnP (· == slash), c ≠ [] ∧ c ≠ dot ∧ c ≠ dotdot := by
  unfold normalForm at h ⊢
  by_cases hnil : pathStack p = []
  · rw [if_pos hnil] at h
    exact absurd rfl h
  · rw [if_neg hnil]
    obtain ⟨c, parts, hcons⟩ := exists_cons_of_ne_nil hnil
    have hall : ∀ d ∈ c :: parts, d ≠ [] ∧ slash ∉ d ∧ d ≠ dot ∧ d ≠ dotdot := by
      rw [← hcons]
      exact fun d hd => mem_pathStack hd
    have hsplit : ((joinParts (c :: parts)).drop 1).splitOnP (· == slash) = c :: parts :=
      splitOnP_joinParts (hall c mem_cons_self).2.1 fun d hd =>
        (hall d (mem_cons_of_mem c hd)).2.1
    rw [hcons, hsplit]
    intro d hd
    obtain ⟨hne, -, hdot, hup⟩ := hall d hd
    exact ⟨hne, hdot, hup⟩

theorem length_vfsNormalizePath_lt (p : Bytes) : (vfsNormalizePath p).length < vfsMaxPath := by
  unfold vfsNormalizePath
  split_ifs
  · decide
  · rw [length_take]
    exact lt_of_le_of_lt (min_le_left _ _) (by decide)

theorem vfsNormalizePath_ne_normalForm (h : ¬ Returns maxParts [] (pathOps p)) :
    vfsNormalizePath p ≠ normalForm p := by
  have hlost : (resolveParts p).length < (pathStack p).length := by
    rw [resolveParts_eq]
    exact length_boundedRun_lt h
  have hnil : pathStack p ≠ [] := ne_nil_of_length_pos (by omega)
  intro heq
  by_cases hroot : resolveParts p = []
  · have hcomp : components (vfsNormalizePath p) = [] := by
      unfold vfsNormalizePath
      rw [if_pos hroot]
      exact components_slash_cons []
    rw [heq, components_normalForm] at hcomp
    exact hnil hcomp
  · have hcount : (normalForm p).count slash = (pathStack p).length := by
      unfold normalForm
      rw [if_neg hnil]
      exact count_slash_joinParts fun c hc => (mem_pathStack hc).2.1
    have hfew : (vfsNormalizePath p).count slash ≤ (resolveParts p).length := by
      unfold vfsNormalizePath
      rw [if_neg hroot]
      calc ((joinParts (resolveParts p)).take (vfsMaxPath - 1)).count slash
          ≤ (joinParts (resolveParts p)).count slash := (take_sublist _ _).count_le slash
        _ = (resolveParts p).length :=
          count_slash_joinParts fun c hc => (resolveParts_wellFormed p c hc).2
    rw [heq, hcount] at hfew
    omega

/-- Normalisation is right exactly for the paths that go back to the root after every excess of
32 components, and whose normal form fits the buffer. -/
theorem normalises_iff (p : Bytes) :
    Normalises p ↔ Returns maxParts [] (pathOps p) ∧ (normalForm p).length < vfsMaxPath := by
  constructor
  · intro h
    refine ⟨?_, ?_⟩
    · by_contra hno
      exact vfsNormalizePath_ne_normalForm hno h.form
    · rw [← h.form]
      exact length_vfsNormalizePath_lt p
  · rintro ⟨hreturns, hfit⟩
    have hform := vfsNormalizePath_eq_normalForm hreturns hfit
    refine ⟨hform, ?_, ?_⟩
    · rw [hform]
      exact vfsNormalizePath_normalForm hreturns hfit
    · rw [hform]
      exact clean_normalForm

def deepPath : Bytes := joinParts (replicate 33 (bytes "d"))

/-- The last component is lost, and a `..` behind it removes the one before. -/
theorem deep_path_loses_component : deepPath.length < vfsMaxPath ∧
      vfsNormalizePath deepPath = joinParts (replicate 32 (bytes "d")) ∧
      normalForm deepPath = deepPath ∧
      vfsNormalizePath (deepPath ++ bytes "/..") = joinParts (replicate 31 (bytes "d")) := by
  decide +kernel

end SageOS
