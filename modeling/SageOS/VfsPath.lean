import SageOS.CString

/-!
# Path normalisation

`vfsNormalizePath` splits a path at slashes, drops empty and `.` components, lets `..` remove the
last component kept so far, keeps at most 32 components and rebuilds the path into a buffer of
`VFS_MAX_PATH` bytes. Splitting is a homomorphism at a slash, and the components of a normal form
that fits its buffer are exactly the components that were kept.
-/
namespace SageOS
open List

def slash : UInt8 := 47

def dot : Bytes := bytes "."

def dotdot : Bytes := bytes ".."

def vfsMaxPath : ℕ := 256

def maxParts : ℕ := 32

/-- The runs of bytes between slashes, empty ones skipped. -/
def components (p : Bytes) : List Bytes := (p.splitOnP (· == slash)).filter (· ≠ [])

/-- One component of the scan: `.` is skipped, `..` drops the last part, and a part beyond the
32nd is lost. -/
def pushPart (parts : List Bytes) (c : Bytes) : List Bytes :=
  if c = dot then parts
  else if c = dotdot then parts.dropLast
  else if parts.length < maxParts then parts ++ [c]
  else parts

def resolveParts (p : Bytes) : List Bytes := (components p).foldl pushPart []

def joinParts (parts : List Bytes) : Bytes := parts.flatMap (slash :: ·)

def vfsNormalizePath (p : Bytes) : Bytes :=
  if resolveParts p = [] then [slash]
  else (joinParts (resolveParts p)).take (vfsMaxPath - 1)

@[simp] theorem components_nil : components [] = [] := by simp [components]

theorem components_append_slash (p q : Bytes) :
    components (p ++ slash :: q) = components p ++ components q := by
  unfold components
  rw [splitOnP_append_cons _ _ (by simp), filter_append]

@[simp] theorem components_slash_cons (q : Bytes) : components (slash :: q) = components q := by
  simpa using components_append_slash [] q

theorem components_singleton {c : Bytes} (hc : c ≠ []) (hs : slash ∉ c) : components c = [c] := by
  have hone : c.splitOnP (· == slash) = [c] := by
    apply splitOnP_eq_singleton
    intro x hx
    simpa using fun he : x = slash => hs (he ▸ hx)
  simp [components, hone, hc]

theorem slash_notMem_of_mem_splitOnP (p c : Bytes) (hc : c ∈ p.splitOnP (· == slash)) :
    slash ∉ c := by
  induction p generalizing c with
  | nil =>
    have he : c = [] := by simpa using hc
    simp [he]
  | cons x p ih =>
    rw [splitOnP_cons_eq_if_modifyHead] at hc
    by_cases hx : x = slash
    · rw [if_pos (by simp [hx])] at hc
      rcases mem_cons.mp hc with rfl | hc
      · simp
      · exact ih c hc
    · rw [if_neg (by simp [hx])] at hc
      obtain ⟨d, rest, hd⟩ := exists_cons_of_ne_nil (splitOnP_ne_nil (· == slash) p)
      rw [hd, modifyHead_cons] at hc
      rcases mem_cons.mp hc with rfl | hc
      · have hs := ih d (by simp [hd])
        simp [hs, Ne.symm hx]
      · exact ih c (by simp [hd, hc])

theorem ne_nil_and_slash_notMem_of_mem_components {p c : Bytes} (hc : c ∈ components p) :
    c ≠ [] ∧ slash ∉ c := by
  obtain ⟨hmem, hne⟩ := mem_filter.mp hc
  exact ⟨by simpa using hne, slash_notMem_of_mem_splitOnP p c hmem⟩

theorem components_slash_append_joinParts (c : Bytes) (parts : List Bytes) :
    components (c ++ joinParts parts) = components c ++ components (joinParts parts) := by
  cases parts with
  | nil => simp [joinParts]
  | cons d parts =>
    change components (c ++ slash :: (d ++ joinParts parts)) =
      components c ++ components (slash :: (d ++ joinParts parts))
    rw [components_append_slash, components_slash_cons]

theorem components_joinParts (parts : List Bytes)
    (hparts : ∀ c ∈ parts, c ≠ [] ∧ slash ∉ c) : components (joinParts parts) = parts := by
  induction parts with
  | nil => simp [joinParts]
  | cons c parts ih =>
    obtain ⟨hne, hs⟩ := hparts c (by simp)
    have htail := ih (fun d hd => hparts d (by simp [hd]))
    change components (slash :: (c ++ joinParts parts)) = c :: parts
    rw [components_slash_cons, components_slash_append_joinParts, htail,
      components_singleton hne hs]
    rfl

theorem mem_of_mem_foldl_pushPart (cs parts : List Bytes) (c : Bytes)
    (hc : c ∈ cs.foldl pushPart parts) : c ∈ cs ∨ c ∈ parts := by
  induction cs generalizing parts with
  | nil => exact .inr hc
  | cons d cs ih =>
    rcases ih _ hc with hmem | hmem
    · exact .inl (by simp [hmem])
    · unfold pushPart at hmem
      split_ifs at hmem with h₁ h₂ h₃
      · exact .inr hmem
      · exact .inr (mem_of_mem_dropLast hmem)
      · rcases mem_append.mp hmem with hp | hd
        · exact .inr hp
        · exact .inl (by simp [mem_singleton.mp hd])
      · exact .inr hmem

theorem resolveParts_wellFormed (p : Bytes) : ∀ c ∈ resolveParts p, c ≠ [] ∧ slash ∉ c := by
  intro c hc
  rcases mem_of_mem_foldl_pushPart _ _ _ hc with hmem | hmem
  · exact ne_nil_and_slash_notMem_of_mem_components hmem
  · simp at hmem

@[simp] theorem joinParts_append (a b : List Bytes) :
    joinParts (a ++ b) = joinParts a ++ joinParts b := by
  simp [joinParts]

end SageOS
