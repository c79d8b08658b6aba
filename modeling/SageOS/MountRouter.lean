import SageOS.Vfs
import SageOS.GuardedRun

/-!
# Two mount tables and two routers

The C layer keeps an array of mounts and marks a removed one inactive. The scripted bridge keeps
its own list, which `vfs_mount` extends and nothing shrinks, and routes the path as the caller
wrote it. Both take the longest mount path that is a prefix up to a slash; the bridge returns every
mount of that length.
-/
namespace SageOS
open List
variable {σ : Type}

def vfsMaxMounts : ℕ := 8

structure BridgeMount (σ : Type) where
  path : Bytes
  backend : VfsBackend σ
  isSage : Bool

/-- `os_char_at` with its default outside the string. -/
def osCharAt (s : Bytes) (i : ℕ) : UInt8 := s.getD i 0

namespace BridgeMount
variable (path : Bytes) (m : BridgeMount σ)

def isMatch : Bool :=
  m.path.isPrefixOf path &&
    if m.path.length = 1 then osCharAt m.path 0 = slash
    else if path.length = m.path.length then true
    else osCharAt path m.path.length = slash

def rel : Bytes :=
  if 1 < m.path.length then
    let rest := path.drop m.path.length
    if rest.length = 0 then [slash]
    else if osCharAt rest 0 ≠ slash then slash :: rest
    else rest
  else path

/-- One iteration of the loop of `vfs_resolve_best` over `best_len` and `matches`. -/
def collect (acc : ℤ × List (BridgeMount σ × Bytes)) : ℤ × List (BridgeMount σ × Bytes) :=
  if m.isMatch path then
    let acc := if acc.1 < m.path.length then ((m.path.length : ℤ), []) else acc
    if (m.path.length : ℤ) = acc.1 then (acc.1, acc.2 ++ [(m, m.rel path)]) else acc
  else acc

end BridgeMount

def vfsResolveBest (mounts : List (BridgeMount σ)) (path : Bytes) :
    List (BridgeMount σ × Bytes) :=
  if path.length = 0 then []
  else (mounts.foldl (fun acc m => m.collect path acc) (-1, [])).2

/-- The mount array of the C layer, and the list of the bridge once it runs. -/
structure MountTables (σ : Type) where
  mounts : List (VfsMount σ) := []
  bridge : Option (List (BridgeMount σ)) := none

namespace MountTables
variable (t : MountTables σ)

def vfsMount (path : CStr) (backend : VfsBackend σ) : ℤ × MountTables σ :=
  if vfsMaxMounts ≤ t.mounts.length then (vfsENOSPC, t)
  else
    (0, { mounts := t.mounts ++ [⟨path.chars, backend, true⟩]
          bridge := t.bridge.map (· ++ [⟨path.chars, backend, false⟩]) })

/-- The first active mount with the path is marked inactive. -/
def deactivate (path : Bytes) : List (VfsMount σ) → Option (List (VfsMount σ))
  | [] => none
  | m :: ms =>
    if m.active = true ∧ path.length = m.path.length ∧ strncmp path m.path m.path.length = 0 then
      some ({ m with active := false } :: ms)
    else (deactivate path ms).map (m :: ·)

def vfsUmount (path : CStr) : ℤ × MountTables σ :=
  match deactivate path.chars t.mounts with
  | some mounts => (0, { t with mounts := mounts })
  | none => (vfsENOENT, t)

/-- The bridge starts with its own driver on `/embedded`. -/
def vfsBridgeInit (ramfs : VfsBackend σ) : MountTables σ :=
  if t.bridge.isSome then t
  else { t with bridge := some [⟨bytes "/embedded", ramfs, true⟩] }

def cSelects (path : CStr) : Option (VfsMount σ × Bytes) :=
  resolveMount t.mounts (vfsNormalizePath path.chars)

def bridgeSelects (path : CStr) : List (BridgeMount σ × Bytes) :=
  (t.bridge.map (vfsResolveBest · path.chars)).getD []

/-- Where both routers name a C backend they name the same one, with the same rest of the path. -/
def RoutersAgree (path : CStr) : Prop :=
  ∀ hit, t.cSelects path = some hit → ∀ r ∈ t.bridgeSelects path, r.1.isSage = false →
    r.1.backend = hit.1.backend ∧ r.2 = hit.2

/-- Neither router sends the path to a mount at `mountPath`. -/
def Forgotten (mountPath path : CStr) : Prop :=
  (∀ hit, t.cSelects path = some hit → hit.1.path ≠ mountPath.chars) ∧
    ∀ r ∈ t.bridgeSelects path, r.1.isSage = false → r.1.path ≠ mountPath.chars

end MountTables

inductive MountEvent (σ : Type)
  | mount (path : CStr) (backend : VfsBackend σ)
  | umount (path : CStr)
  | bridgeInit (ramfs : VfsBackend σ)

namespace MountEvent

def step (t : MountTables σ) : MountEvent σ → MountTables σ
  | .mount path backend => (t.vfsMount path backend).2
  | .umount path => (t.vfsUmount path).2
  | .bridgeInit ramfs => t.vfsBridgeInit ramfs

def Normal (path : CStr) : Prop := vfsNormalizePath path.chars = path.chars

def ActiveAt (t : MountTables σ) (path : CStr) : Prop :=
  ∃ m ∈ t.mounts, m.active = true ∧ m.path = path.chars

/-- Mount paths are in normal form and carry one active mount at a time. -/
def WellUsed (t : MountTables σ) : MountEvent σ → Prop
  | .mount path _ => Normal path ∧ ¬ ActiveAt t path
  | _ => True

/-- The bridge starts while nothing is mounted, and nothing is unmounted once it runs. -/
def Synchronous (t : MountTables σ) : MountEvent σ → Prop
  | .mount _ _ => True
  | .umount path => t.bridge.isSome = true → ¬ ActiveAt t path
  | .bridgeInit _ => t.bridge = none → ∀ m ∈ t.mounts, m.active = false

def Permitted (t : MountTables σ) (e : MountEvent σ) : Prop := WellUsed t e ∧ Synchronous t e

instance (path : CStr) : Decidable (Normal path) := inferInstanceAs (Decidable (_ = _))

instance (t : MountTables σ) (path : CStr) : Decidable (ActiveAt t path) :=
  inferInstanceAs (Decidable (∃ m ∈ t.mounts, _))

instance (t : MountTables σ) : DecidablePred (WellUsed t)
  | .mount _ _ => inferInstanceAs (Decidable (_ ∧ _))
  | .umount _ | .bridgeInit _ => inferInstanceAs (Decidable True)

instance (t : MountTables σ) : DecidablePred (Synchronous t)
  | .mount _ _ => inferInstanceAs (Decidable True)
  | .umount _ => inferInstanceAs (Decidable (_ → _))
  | .bridgeInit _ => decidable_of_iff (t.bridge.isNone = true → ∀ m ∈ t.mounts, m.active = false)
      (by simp [Synchronous])

instance (t : MountTables σ) : DecidablePred (Permitted t) :=
  fun _ => inferInstanceAs (Decidable (_ ∧ _))

end MountEvent

/-! ### What each router selects -/

theorem bestMount_append (norm : Bytes) (ms : List (VfsMount σ)) (m : VfsMount σ) :
    bestMount norm (ms ++ [m]) =
      if mountMatches norm m && (bestMount norm ms).all (·.path.length < m.path.length) then some m
      else bestMount norm ms := by
  simp [bestMount, foldl_append]

theorem bestMount_eq_none {norm : Bytes} {ms : List (VfsMount σ)} (h : bestMount norm ms = none) :
    ∀ m ∈ ms, mountMatches norm m = false := by
  induction ms using List.reverseRecOn with
  | nil => simp
  | append_singleton ms x ih =>
    rw [bestMount_append] at h
    split_ifs at h with hx
    intro m hm
    rcases mem_append.mp hm with hold | hnew
    · exact ih h m hold
    · obtain rfl : m = x := by simpa using hnew
      simpa [h] using hx

theorem bestMount_spec {norm : Bytes} {ms : List (VfsMount σ)} {m : VfsMount σ}
    (h : bestMount norm ms = some m) :
    m ∈ ms ∧ mountMatches norm m = true ∧
      (∀ m' ∈ ms, mountMatches norm m' = true → m'.path.length ≤ m.path.length) ∧
      ∃ before after, ms = before ++ m :: after ∧
        ∀ m' ∈ before, mountMatches norm m' = true → m'.path.length < m.path.length := by
  induction ms using List.reverseRecOn generalizing m with
  | nil => simp [bestMount] at h
  | append_singleton ms x ih =>
    rw [bestMount_append] at h
    split_ifs at h with hx
    · obtain ⟨hmatch, hall⟩ := Bool.and_eq_true_iff.mp hx
      obtain rfl := Option.some.inj h
      have hlt : ∀ m' ∈ ms, mountMatches norm m' = true → m'.path.length < x.path.length := by
        intro m' hm' hmatch'
        cases hb : bestMount norm ms with
        | none => simp [bestMount_eq_none hb m' hm'] at hmatch'
        | some b =>
          have hb' : b.path.length < x.path.length := by simpa [hb] using hall
          exact ((ih hb).2.2.1 m' hm' hmatch').trans_lt hb'
      refine ⟨by simp, hmatch, fun m' hm' hmatch' => ?_, ms, [], rfl, hlt⟩
      rcases mem_append.mp hm' with hold | hnew
      · exact (hlt m' hold hmatch').le
      · simp_all
    · obtain ⟨hmem, hmatch, hmax, before, after, rfl, hfirst⟩ := ih h
      refine ⟨by simp, hmatch, fun m' hm' hmatch' => ?_, before, after ++ [x], by simp, hfirst⟩
      rcases mem_append.mp hm' with hold | hnew
      · exact hmax m' hold hmatch'
      · obtain rfl : m' = x := by simpa using hnew
        simpa [hmatch', h] using hx

/-- What `best_len` and `matches` say about the mounts seen so far. -/
structure Collected (path : Bytes) (ms : List (BridgeMount σ))
    (acc : ℤ × List (BridgeMount σ × Bytes)) : Prop where
  selected : ∀ r ∈ acc.2, r.1 ∈ ms ∧ r.1.isMatch path = true ∧ r.2 = r.1.rel path ∧
    (r.1.path.length : ℤ) = acc.1
  longest : ∀ m ∈ ms, m.isMatch path = true → (m.path.length : ℤ) ≤ acc.1

namespace Collected
variable {path : Bytes} {ms : List (BridgeMount σ)} {x : BridgeMount σ} {best : ℤ}
  {found : List (BridgeMount σ × Bytes)}

theorem longest_append (h : Collected path ms (best, found)) {n : ℤ} (hn : best ≤ n)
    (hx : x.isMatch path = true → (x.path.length : ℤ) ≤ n) :
    ∀ m ∈ ms ++ [x], m.isMatch path = true → (m.path.length : ℤ) ≤ n := by
  intro m hm hmatch
  rcases mem_append.mp hm with hold | hnew
  · exact (h.longest m hold hmatch).trans hn
  · obtain rfl : m = x := by simpa using hnew
    exact hx hmatch

theorem skip (h : Collected path ms (best, found))
    (hx : x.isMatch path = true → (x.path.length : ℤ) ≤ best) :
    Collected path (ms ++ [x]) (best, found) where
  selected r hr := by
    obtain ⟨hmem, hrest⟩ := h.selected r hr
    exact ⟨mem_append_left _ hmem, hrest⟩
  longest := h.longest_append le_rfl hx

theorem collect (h : Collected path ms (best, found)) :
    Collected path (ms ++ [x]) (x.collect path (best, found)) := by
  unfold BridgeMount.collect
  by_cases hx : x.isMatch path = true
  · rw [if_pos hx]
    dsimp only
    rcases lt_trichotomy best (x.path.length : ℤ) with hlt | heq | hgt
    · rw [if_pos hlt, if_pos rfl]
      refine ⟨?_, h.longest_append hlt.le fun _ => le_rfl⟩
      intro r hr
      obtain rfl : r = (x, x.rel path) := by simpa using hr
      simp [hx]
    · rw [if_neg heq.not_lt, if_pos heq.symm]
      refine ⟨?_, h.longest_append le_rfl fun _ => heq.ge⟩
      intro r hr
      rcases mem_append.mp hr with hold | hnew
      · exact (h.skip fun _ => heq.ge).selected r hold
      · obtain rfl : r = (x, x.rel path) := by simpa using hnew
        simp [hx, heq]
    · rw [if_neg hgt.not_gt, if_neg hgt.ne]
      exact h.skip fun _ => hgt.le
  · rw [if_neg hx]
    exact h.skip fun hm => absurd hm hx

theorem foldl (path : Bytes) (ms : List (BridgeMount σ)) :
    Collected path ms (ms.foldl (fun acc m => m.collect path acc) (-1, [])) := by
  induction ms using List.reverseRecOn with
  | nil => exact ⟨by simp, by simp⟩
  | append_singleton ms x ih =>
    rw [foldl_append]
    exact ih.collect

end Collected

theorem vfsResolveBest_spec {ms : List (BridgeMount σ)} {path : Bytes} {r : BridgeMount σ × Bytes}
    (h : r ∈ vfsResolveBest ms path) :
    r.1 ∈ ms ∧ r.1.isMatch path = true ∧ r.2 = r.1.rel path ∧
      ∀ m ∈ ms, m.isMatch path = true → m.path.length ≤ r.1.path.length := by
  unfold vfsResolveBest at h
  split_ifs at h with hp
  · simp at h
  · obtain ⟨hmem, hmatch, hrel, hlen⟩ := (Collected.foldl path ms).selected r h
    refine ⟨hmem, hmatch, hrel, ?_⟩
    intro m hm hm'
    have := (Collected.foldl path ms).longest m hm hm'
    omega

/-! ### Agreement on one mount -/

theorem vfsNormalizePath_eq_cons (p : Bytes) : ∃ q, vfsNormalizePath p = slash :: q := by
  unfold vfsNormalizePath
  split_ifs with h
  · exact ⟨[], rfl⟩
  · obtain ⟨c, cs, hparts⟩ := exists_cons_of_ne_nil h
    rw [hparts]
    exact ⟨(c ++ joinParts cs).take (vfsMaxPath - 2), rfl⟩

def VfsMount.toBridge (m : VfsMount σ) : BridgeMount σ := ⟨m.path, m.backend, false⟩

structure VfsMount.Absolute (m : VfsMount σ) : Prop where
  nul_free : 0 ∉ m.path
  head : ∃ q, m.path = slash :: q

namespace VfsMount
variable {m : VfsMount σ} {path : Bytes}

theorem Absolute.length_ne_one (h : m.Absolute) (hroot : m.path ≠ [slash]) : m.path.length ≠ 1 := by
  obtain ⟨q, hq⟩ := h.head
  rw [hq] at hroot ⊢
  simpa using hroot

theorem isMatch_toBridge : m.toBridge.isMatch path = (m.path.isPrefixOf path &&
      if m.path.length = 1 then osCharAt m.path 0 = slash
      else if path.length = m.path.length then true
      else osCharAt path m.path.length = slash) := rfl

theorem isMatch_iff_mountMatches (h : m.Absolute) (hpath : ∃ q, path = slash :: q) :
    m.active = true ∧ m.toBridge.isMatch path = true ↔ mountMatches path m = true := by
  unfold mountMatches
  rw [isMatch_toBridge]
  by_cases hroot : m.path = [slash]
  · obtain ⟨q, rfl⟩ := hpath
    simp [hroot, osCharAt]
  · have hlen := h.length_ne_one hroot
    have hcmp := strncmp_length_eq_zero_iff path m.path h.nul_free
    by_cases hpre : m.path <+: path
    · have hle := hpre.length_le
      simp only [hroot, hlen, hcmp, hpre, hle, osCharAt, isPrefixOf_iff_prefix, decide_true,
        Bool.and_eq_true, Bool.true_and, if_false, decide_false, Bool.false_or]
      split_ifs with heq <;> simp [heq]
    · simp [hroot, hcmp, hpre]

theorem rel_toBridge (h : m.Absolute) (hmatch : m.toBridge.isMatch path = true) :
    m.toBridge.rel path = relativePath path m := by
  rw [isMatch_toBridge] at hmatch
  unfold BridgeMount.rel relativePath
  by_cases hroot : m.path = [slash]
  · simp [toBridge, hroot]
  · obtain ⟨q, hq⟩ := h.head
    have hlen := h.length_ne_one hroot
    have hpos : 1 < m.toBridge.path.length := by
      show 1 < m.path.length
      rw [hq] at hlen ⊢
      simp only [length_cons] at hlen ⊢
      omega
    obtain ⟨hpre, hend⟩ := Bool.and_eq_true_iff.mp hmatch
    have hle := (List.isPrefixOf_iff_prefix.mp hpre).length_le
    rw [if_neg hlen] at hend
    rw [if_pos hpos, if_neg hroot]
    by_cases heq : path.length = m.path.length
    · simp [toBridge, heq]
    · have hslash : path.getD m.path.length 0 = slash := by simpa [heq, osCharAt] using hend
      have hrest : ¬ path.length - m.path.length = 0 := by omega
      have hfirst : osCharAt (path.drop m.path.length) 0 = slash := by
        simpa [osCharAt, getD_eq_getElem?_getD, getElem?_drop] using hslash
      simp [toBridge, hrest, heq, hfirst]

end VfsMount
end SageOS
