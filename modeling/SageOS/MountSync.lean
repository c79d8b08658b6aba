import SageOS.MountRouter

/-!
# Agreement of the routers over mount histories

While the bridge starts before anything is mounted and nothing is unmounted afterwards, its list
is its own driver followed by the active mounts of the C layer. The two routers then agree on
every path in normal form. A single unmount breaks the correspondence for good, because nothing
tells the bridge.
-/
namespace SageOS
open List Option
variable {σ : Type}

def activeMounts (ms : List (VfsMount σ)) : List (VfsMount σ) := ms.filter (·.active)

@[simp] theorem mem_activeMounts {ms : List (VfsMount σ)} {m : VfsMount σ} :
    m ∈ activeMounts ms ↔ m ∈ ms ∧ m.active = true := by simp [activeMounts]

structure MountTables.Synced (t : MountTables σ) : Prop where
  absolute : ∀ m ∈ t.mounts, m.Absolute
  unique : ((activeMounts t.mounts).map (·.path)).Nodup
  bridge : ∀ bs, t.bridge = some bs → ∃ ramfs,
    bs = ⟨bytes "/embedded", ramfs, true⟩ :: (activeMounts t.mounts).map (·.toBridge)

namespace MountTables.Synced
variable {t : MountTables σ} (h : t.Synced)
include h

theorem eq_of_path_eq {m m' : VfsMount σ} (hm : m ∈ t.mounts) (hact : m.active = true)
    (hm' : m' ∈ t.mounts) (hact' : m'.active = true) (heq : m.path = m'.path) : m = m' :=
  inj_on_of_nodup_map h.unique (mem_activeMounts.mpr ⟨hm, hact⟩)
    (mem_activeMounts.mpr ⟨hm', hact'⟩) heq

theorem exists_of_mem_bridgeSelects {path : CStr} {r : BridgeMount σ × Bytes}
    (hr : r ∈ t.bridgeSelects path) (hc : r.1.isSage = false) :
    ∃ m ∈ t.mounts, m.active = true ∧ r.1 = m.toBridge ∧
      r.1.isMatch path.chars = true ∧ r.2 = r.1.rel path.chars ∧
      ∀ m' ∈ t.mounts, m'.active = true → m'.toBridge.isMatch path.chars = true →
        m'.path.length ≤ m.path.length := by
  unfold bridgeSelects at hr
  cases hb : t.bridge with
  | none => simp [hb] at hr
  | some bs =>
    rw [hb] at hr
    obtain ⟨hmem, hmatch, hrel, hmax⟩ := vfsResolveBest_spec hr
    obtain ⟨ramfs, rfl⟩ := h.bridge bs hb
    rcases mem_cons.mp hmem with hsage | hmem
    · rw [hsage] at hc
      simp at hc
    · obtain ⟨m, hm, heq⟩ := mem_map.mp hmem
      obtain ⟨hm, hact⟩ := mem_activeMounts.mp hm
      refine ⟨m, hm, hact, heq.symm, hmatch, hrel, ?_⟩
      intro m' hm' hact' hmatch'
      have hle := hmax m'.toBridge
        (mem_cons_of_mem _ (mem_map_of_mem (mem_activeMounts.mpr ⟨hm', hact'⟩))) hmatch'
      rwa [← heq] at hle

theorem routersAgree {path : CStr} (hpath : MountEvent.Normal path) : t.RoutersAgree path := by
  rintro ⟨m, rel⟩ hsel r hr hc
  have hhead : ∃ q, path.chars = slash :: q := by
    rw [← hpath]
    exact vfsNormalizePath_eq_cons _
  unfold cSelects resolveMount at hsel
  rw [hpath] at hsel
  obtain ⟨b, hbest, heq⟩ := map_eq_some_iff.mp hsel
  obtain ⟨rfl, rfl⟩ := Prod.mk.inj heq
  obtain ⟨hb, hbmatch, hbmax, -⟩ := bestMount_spec hbest
  obtain ⟨hbact, hbmatch'⟩ :=
    (VfsMount.isMatch_iff_mountMatches (h.absolute b hb) hhead).mpr hbmatch
  obtain ⟨m, hm, hact, hrm, hmatch, hrel, hmax⟩ := h.exists_of_mem_bridgeSelects hr hc
  rw [hrm] at hmatch hrel
  have hmm := (VfsMount.isMatch_iff_mountMatches (h.absolute m hm) hhead).mp ⟨hact, hmatch⟩
  have hlen : m.path.length = b.path.length :=
    le_antisymm (hbmax m hm hmm) (hmax b hb hbact hbmatch')
  have hpm : m.path <+: path.chars :=
    isPrefixOf_iff_prefix.mp (Bool.and_eq_true_iff.mp hmatch).1
  have hpb : b.path <+: path.chars :=
    isPrefixOf_iff_prefix.mp (Bool.and_eq_true_iff.mp hbmatch').1
  have hsame : m.path = b.path := (prefix_of_prefix_length_le hpm hpb hlen.le).eq_of_length hlen
  obtain rfl := h.eq_of_path_eq hm hact hb hbact hsame
  rw [hrm, hrel]
  exact ⟨rfl, VfsMount.rel_toBridge (h.absolute m hm) hmatch⟩

end MountTables.Synced

/-! ### The steps -/

namespace MountTables
variable {p : Bytes} {ms ms' : List (VfsMount σ)}

theorem path_eq_of_compared {m : VfsMount σ} (hm : m.Absolute)
    (h : p.length = m.path.length ∧ strncmp p m.path m.path.length = 0) : m.path = p :=
  ((strncmp_length_eq_zero_iff p m.path hm.nul_free).mp h.2).eq_of_length h.1.symm

theorem compared_self {m : VfsMount σ} (hm : m.Absolute) :
    strncmp m.path m.path m.path.length = 0 :=
  (strncmp_length_eq_zero_iff m.path m.path hm.nul_free).mpr prefix_rfl

theorem deactivate_cons (m : VfsMount σ) : deactivate p (m :: ms) =
      if m.active = true ∧ p.length = m.path.length ∧ strncmp p m.path m.path.length = 0 then
        some ({ m with active := false } :: ms)
      else (deactivate p ms).map (m :: ·) := rfl

theorem exists_of_deactivate (habs : ∀ m ∈ ms, m.Absolute) (h : deactivate p ms = some ms') :
    ∃ m ∈ ms, m.active = true ∧ m.path = p := by
  induction ms generalizing ms' with
  | nil => simp [deactivate] at h
  | cons m ms ih =>
    rw [deactivate_cons] at h
    split_ifs at h with hm
    · exact ⟨m, by simp, hm.1, path_eq_of_compared (habs m (by simp)) hm.2⟩
    · obtain ⟨rest, hrest, -⟩ := map_eq_some_iff.mp h
      obtain ⟨x, hx, hact⟩ := ih (fun x hx => habs x (mem_cons_of_mem _ hx)) hrest
      exact ⟨x, mem_cons_of_mem _ hx, hact⟩

theorem deactivate_spec (h : deactivate p ms = some ms') :
    (∀ m' ∈ ms', ∃ m ∈ ms, m'.path = m.path) ∧ (activeMounts ms').Sublist (activeMounts ms) := by
  induction ms generalizing ms' with
  | nil => simp [deactivate] at h
  | cons m ms ih =>
    rw [deactivate_cons] at h
    split_ifs at h with hm
    · obtain rfl := some.inj h
      refine ⟨?_, ?_⟩
      · intro m' hm'
        rcases mem_cons.mp hm' with rfl | hold
        · exact ⟨m, by simp, rfl⟩
        · exact ⟨m', mem_cons_of_mem _ hold, rfl⟩
      · simp [activeMounts, hm.1]
    · obtain ⟨rest, hrest, rfl⟩ := map_eq_some_iff.mp h
      obtain ⟨hpaths, hsub⟩ := ih hrest
      refine ⟨?_, ?_⟩
      · intro m' hm'
        rcases mem_cons.mp hm' with rfl | hold
        · exact ⟨m', by simp, rfl⟩
        · obtain ⟨x, hx, hpath⟩ := hpaths m' hold
          exact ⟨x, mem_cons_of_mem _ hx, hpath⟩
      · simp only [activeMounts, filter_cons]
        split_ifs
        · exact hsub.cons_cons m
        · exact hsub

theorem path_ne_of_deactivate (habs : ∀ m ∈ ms, m.Absolute)
    (hunique : ((activeMounts ms).map (·.path)).Nodup) (h : deactivate p ms = some ms') :
    ∀ m' ∈ ms', m'.active = true → m'.path ≠ p := by
  induction ms generalizing ms' with
  | nil => simp [deactivate] at h
  | cons m ms ih =>
    rw [deactivate_cons] at h
    split_ifs at h with hm
    · obtain rfl := some.inj h
      have hpath := path_eq_of_compared (habs m (by simp)) hm.2
      have hnodup : (m.path :: (activeMounts ms).map (·.path)).Nodup := by
        simpa [activeMounts, filter_cons, hm.1] using hunique
      intro m' hm' hact heq
      rcases mem_cons.mp hm' with rfl | hold
      · simp at hact
      · apply (nodup_cons.mp hnodup).1
        rw [hpath, ← heq]
        exact mem_map_of_mem (mem_activeMounts.mpr ⟨hold, hact⟩)
    · obtain ⟨rest, hrest, rfl⟩ := map_eq_some_iff.mp h
      have hsub : ((activeMounts ms).map (·.path)).Nodup :=
        hunique.sublist (((sublist_cons_self m ms).filter _).map _)
      intro m' hm' hact heq
      rcases mem_cons.mp hm' with rfl | hold
      · subst heq
        exact hm ⟨hact, rfl, compared_self (habs m' (by simp))⟩
      · exact ih (fun x hx => habs x (mem_cons_of_mem _ hx)) hsub hrest m' hold hact heq

end MountTables

namespace MountTables.Synced
variable {t : MountTables σ} (h : t.Synced)
include h

variable {path : CStr}

theorem vfsMount (backend : VfsBackend σ) (hnormal : MountEvent.Normal path)
    (hfree : ¬ MountEvent.ActiveAt t path) : (t.vfsMount path backend).2.Synced := by
  unfold MountTables.vfsMount
  split_ifs with hfull
  · exact h
  · have hactive : activeMounts (t.mounts ++ [⟨path.chars, backend, true⟩]) =
        activeMounts t.mounts ++ [⟨path.chars, backend, true⟩] := by simp [activeMounts]
    constructor
    · intro m hm
      rcases mem_append.mp hm with hold | hnew
      · exact h.absolute m hold
      · obtain rfl : m = ⟨path.chars, backend, true⟩ := by simpa using hnew
        refine ⟨path.nul_free, ?_⟩
        obtain ⟨q, hq⟩ := vfsNormalizePath_eq_cons path.chars
        exact ⟨q, hnormal ▸ hq⟩
    · rw [hactive, map_append]
      refine h.unique.append (nodup_singleton _) ?_
      intro q hq hnew
      obtain ⟨m, hm, rfl⟩ := mem_map.mp hq
      obtain ⟨hm, hact⟩ := mem_activeMounts.mp hm
      exact hfree ⟨m, hm, hact, by simpa using hnew⟩
    · intro bs hbs
      obtain ⟨old, hold, rfl⟩ := map_eq_some_iff.mp hbs
      obtain ⟨ramfs, rfl⟩ := h.bridge old hold
      refine ⟨ramfs, ?_⟩
      rw [hactive]
      simp [VfsMount.toBridge]

theorem vfsUmount (hsync : t.bridge.isSome = true → ¬ MountEvent.ActiveAt t path) :
    (t.vfsUmount path).2.Synced := by
  unfold MountTables.vfsUmount
  cases hd : deactivate path.chars t.mounts with
  | none => exact h
  | some ms =>
    obtain ⟨hpaths, hsub⟩ := deactivate_spec hd
    constructor
    · intro m hm
      obtain ⟨m', hm', hpath⟩ := hpaths m hm
      obtain ⟨hnul, hhead⟩ := h.absolute m' hm'
      exact ⟨by rwa [hpath], by rwa [hpath]⟩
    · exact h.unique.sublist (hsub.map _)
    · intro bs hbs
      have hup : t.bridge.isSome = true := by simp [show t.bridge = some bs from hbs]
      exact absurd (exists_of_deactivate h.absolute hd) (hsync hup)

theorem vfsBridgeInit (ramfs : VfsBackend σ)
    (hsync : t.bridge = none → ∀ m ∈ t.mounts, m.active = false) :
    (t.vfsBridgeInit ramfs).Synced := by
  unfold MountTables.vfsBridgeInit
  split_ifs with hup
  · exact h
  · refine ⟨h.absolute, h.unique, ?_⟩
    intro bs hbs
    have hnone : activeMounts t.mounts = [] := by
      have hidle := hsync (by simpa using hup)
      simpa [activeMounts] using hidle
    refine ⟨ramfs, ?_⟩
    rw [hnone]
    exact (some.inj hbs).symm

theorem step {e : MountEvent σ} (he : e.Permitted t) : (e.step t).Synced := by
  cases e with
  | mount path backend => exact h.vfsMount backend he.1.1 he.1.2
  | umount path => exact h.vfsUmount he.2
  | bridgeInit ramfs => exact h.vfsBridgeInit ramfs he.2

theorem forgotten (hsync : t.bridge.isSome = true → ¬ MountEvent.ActiveAt t path)
    (hok : (t.vfsUmount path).1 = 0) (query : CStr) :
    (t.vfsUmount path).2.Forgotten path query := by
  have hnext := h.vfsUmount hsync
  have hgone : ∀ m ∈ (t.vfsUmount path).2.mounts, m.active = true → m.path ≠ path.chars := by
    unfold MountTables.vfsUmount at hok ⊢
    cases hd : deactivate path.chars t.mounts with
    | none => simp [hd, vfsENOENT] at hok
    | some ms => exact path_ne_of_deactivate h.absolute h.unique hd
  refine ⟨?_, ?_⟩
  · rintro ⟨m, rel⟩ hsel
    obtain ⟨b, hbest, heq⟩ := map_eq_some_iff.mp hsel
    obtain ⟨rfl, -⟩ := Prod.mk.inj heq
    obtain ⟨hb, hmatch, -⟩ := bestMount_spec hbest
    have hact : b.active = true := (Bool.and_eq_true_iff.mp hmatch).1
    exact hgone b hb hact
  · intro r hr hc
    obtain ⟨m, hm, hact, hrm, -⟩ := hnext.exists_of_mem_bridgeSelects hr hc
    rw [hrm]
    exact hgone m hm hact

end MountTables.Synced

/-! ### Whole histories -/

namespace MountEvent
open GuardedRun

def boot : MountTables σ := {}

theorem synced_boot : (boot : MountTables σ).Synced where
  absolute := by simp [boot]
  unique := by simp [boot, activeMounts]
  bridge := by simp [boot]

theorem synced_run {es : List (MountEvent σ)} (hes : Guarded step Permitted boot es) :
    (run step boot es).Synced :=
  invariant_run (fun _ _ h he => h.step he) synced_boot hes

theorem routers_agree_in_every_state {es : List (MountEvent σ)}
    (hes : Guarded step Permitted boot es) (n : ℕ) :
    (∀ path, Normal path → (run step boot (es.take n)).RoutersAgree path) ∧
    ∀ mountPath, es[n]? = some (.umount mountPath) →
      ((run step boot (es.take n)).vfsUmount mountPath).1 = 0 →
      ∀ path, (run step boot (es.take (n + 1))).Forgotten mountPath path := by
  have hsynced := synced_run (hes.take n)
  refine ⟨fun path hpath => hsynced.routersAgree hpath, ?_⟩
  intro mountPath hget hok path
  have hnext : es.take (n + 1) = es.take n ++ [.umount mountPath] := by
    rw [take_add_one, hget]
    rfl
  have hguard := hes.take (n + 1)
  rw [hnext, guarded_append] at hguard
  rw [hnext, run_append]
  exact hsynced.forgotten hguard.2.1.2 hok path

def pathA : CStr := ⟨bytes "/a", by decide⟩
def pathB : CStr := ⟨bytes "/b", by decide⟩
def pathRoot : CStr := ⟨bytes "/", by decide⟩
def pathAx : CStr := ⟨bytes "/a/x", by decide⟩

/-- A mount is removed, the bridge starts, and two more mounts follow. -/
def remounting : List (MountEvent Unit) :=
  [.mount pathB {}, .umount pathB, .bridgeInit {}, .mount pathRoot {}, .mount pathA {}]

theorem remounting_permitted : Guarded step Permitted boot remounting :=
  ⟨by decide, by decide, by decide, by decide, by decide,
    trivial⟩

theorem remounting_routed :
    ((run step boot (remounting.take 5)).cSelects pathAx).map (·.2) = some (bytes "/x") ∧
    ((run step boot (remounting.take 5)).bridgeSelects pathAx).map (·.2) = [bytes "/x"] ∧
    (run step boot (remounting.take 5)).RoutersAgree pathAx ∧
    (run step boot (remounting.take 2)).Forgotten pathB pathB := by
  refine ⟨by decide, by decide, ?_, ?_⟩
  · exact (routers_agree_in_every_state remounting_permitted 5).1 pathAx (by decide)
  · exact (routers_agree_in_every_state remounting_permitted 1).2 pathB rfl (by decide) pathB

/-- After an unmount the bridge still sends the path to the mount that is gone. -/
def unmounting : List (MountEvent Unit) :=
  [.bridgeInit {}, .mount pathRoot {}, .mount pathA {}, .umount pathA]

theorem bridge_keeps_unmounted : Guarded step WellUsed boot unmounting ∧ Normal pathA ∧
    ((run step boot (unmounting.take 3)).vfsUmount pathA).1 = 0 ∧
    ¬ (run step boot unmounting).RoutersAgree pathA ∧
    ¬ (run step boot unmounting).Forgotten pathA pathA := by
  have hc : (run step boot unmounting).cSelects pathA = some (⟨[slash], {}, true⟩, bytes "/a") :=
    rfl
  have hb : (run step boot unmounting).bridgeSelects pathA =
      [(⟨bytes "/a", {}, false⟩, bytes "/")] := rfl
  refine ⟨⟨by decide, by decide, by decide, by decide, trivial⟩,
    by decide, by decide, ?_, ?_⟩
  · intro hagree
    have hrel := (hagree _ hc _ (by rw [hb]; exact mem_singleton_self _) rfl).2
    exact absurd hrel (by decide)
  · intro hgone
    exact hgone.2 _ (by rw [hb]; exact mem_singleton_self _) rfl rfl

end MountEvent
end SageOS
