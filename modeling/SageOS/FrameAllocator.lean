import SageOS.FrameBoot

/-!
# Runs of the frame allocator

After booting, frames are allocated and frames that were handed out are freed, in any order. What
must be protected is the first megabyte, the kernel, the end of memory and the frames in use. The
allocator protects them for exactly those boot informations whose kernel is reserved inside the
bitmap and whose last byte lies in a frame that was reserved, or that is never handed out.
-/
namespace SageOS
open List

/-- The allocator with the addresses that were handed out and not freed. -/
structure PmmRun where
  pmm : Pmm
  held : List ℕ := []

def Pmm.static : Pmm := { bitmap := fun _ => 0#8 }

/-- The states that calls reach after booting. -/
inductive PmmRun.Reached (info : BootInfo) : PmmRun → Prop
  | boot {fuel : ℕ} {pmm : Pmm} (h : Pmm.static.physInit fuel info = some (some pmm)) :
      Reached info ⟨pmm, []⟩
  | alloc {t : PmmRun} (ht : Reached info t) {pmm : Pmm} {addr : ℕ}
      (h : t.pmm.physAlloc = some (pmm, addr)) :
      Reached info ⟨pmm, if addr = 0 then t.held else addr :: t.held⟩
  | free {t : PmmRun} (ht : Reached info t) {addr : ℕ} (hmem : addr ∈ t.held) {pmm : Pmm}
      (h : t.pmm.physFree addr = some pmm) : Reached info ⟨pmm, t.held.erase addr⟩

namespace BootInfo

structure Allows (info : BootInfo) (held : List ℕ) (addr : ℕ) : Prop where
  page : addr % 4096 = 0
  low : 0x100000 ≤ addr
  kernel : ∀ x, info.kernelBase.toNat ≤ x → x < info.kernelEnd → ¬ (addr ≤ x ∧ x < addr + 4096)
  memory : addr + 4096 ≤ info.memoryTotal.toNat
  fresh : addr ∉ held

/-- Whatever is called, every index is in the bitmap and every page handed out is allowed. -/
structure Protected (info : BootInfo) : Prop where
  boot : ∀ fuel, Pmm.static.physInit fuel info ≠ some none
  alloc : ∀ t, PmmRun.Reached info t → ∃ pmm addr, t.pmm.physAlloc = some (pmm, addr) ∧
    (addr = 0 ∨ info.Allows t.held addr)
  free : ∀ t, PmmRun.Reached info t → ∀ addr ∈ t.held, (t.pmm.physFree addr).isSome

def lastVisit (info : BootInfo) : ℕ :=
  info.kernelBase.toNat + 4096 * ((info.kernelSize.toNat - 1) / 4096)

def lastFrame (info : BootInfo) : ℕ := (info.kernelEnd - 1) / 4096

/-- The kernel is reserved inside the bitmap, and the frame of its last byte is reserved too or is
not managed. -/
def Reservable (info : BootInfo) : Prop :=
  info.kernelSize.toNat = 0 ∨ info.lastVisit < 128 * 1024 * 1024 ∧
    (info.lastFrame = info.lastVisit / 4096 ∨ info.lastFrame < 256 ∨
      info.totalFrames ≤ info.lastFrame)

instance (info : BootInfo) : Decidable info.Reservable :=
  inferInstanceAs (Decidable (_ ∨ _ ∧ (_ ∨ _ ∨ _)))

theorem visits_lastVisit {info : BootInfo} (h : info.kernelSize.toNat ≠ 0) :
    info.Visits info.lastVisit := by
  unfold Visits lastVisit kernelEnd
  omega

theorem Visits.le_lastVisit {info : BootInfo} {addr : ℕ} (h : info.Visits addr) :
    addr ≤ info.lastVisit := by
  unfold Visits kernelEnd at h
  unfold lastVisit
  omega

theorem visited_or_lastFrame {info : BootInfo} {f x : ℕ} (hbase : info.kernelBase.toNat ≤ x)
    (hend : x < info.kernelEnd) (hf : x / 4096 = f) :
    (∃ addr, info.Visits addr ∧ addr / 4096 = f) ∨
      f = info.lastFrame ∧ info.lastFrame ≠ info.lastVisit / 4096 := by
  by_cases hle : f ≤ info.lastVisit / 4096
  · refine .inl ⟨info.kernelBase.toNat + 4096 * (f - info.kernelBase.toNat / 4096), ?_, ?_⟩
    · unfold Visits lastVisit kernelEnd at *
      omega
    · omega
  · refine .inr ?_
    unfold lastFrame
    unfold Visits lastVisit kernelEnd at *
    omega

end BootInfo

namespace PmmRun

/-- A managed frame outside the first megabyte that was not visited. -/
def Managed (info : BootInfo) (f : ℕ) : Prop :=
  f < info.totalFrames ∧ 256 ≤ f ∧ ∀ addr, info.Visits addr → addr / 4096 ≠ f

structure Kept (info : BootInfo) (t : PmmRun) : Prop where
  frames : t.pmm.totalFrames = info.totalFrames
  unmarked : ∀ f < info.totalFrames, ¬ t.pmm.Marked f → Managed info f ∧ f * 4096 ∉ t.held
  held : ∀ addr ∈ t.held, ∃ f, addr = f * 4096 ∧ Managed info f
  nodup : t.held.Nodup

variable {info : BootInfo} {t : PmmRun}

theorem totalFrames_le (info : BootInfo) : info.totalFrames ≤ maxFrames := Nat.min_le_right _ _

variable {pmm : Pmm}

theorem kept_boot (h : pmm.Booted info) : Kept info ⟨pmm, []⟩ := by
  refine ⟨h.frames, fun f hf hmark => ?_, forall_mem_nil _, nodup_nil⟩
  rw [h.marked f (hf.trans_le (totalFrames_le info)), not_or, not_or] at hmark
  exact ⟨⟨hf, Nat.not_lt.mp hmark.1, fun addr hv ha => hmark.2.2 ⟨addr, hv, ha⟩⟩, not_mem_nil⟩

theorem Kept.physAlloc (h : Kept info t) :
    (t.pmm.physAlloc = some (t.pmm, 0) ∧ ∀ f < info.totalFrames, t.pmm.Marked f) ∨
      ∃ f pmm, t.pmm.physAlloc = some (pmm, f * 4096) ∧ Pmm.Marks t.pmm pmm f True ∧
        f < info.totalFrames ∧ ¬ t.pmm.Marked f ∧ ∀ g < f, t.pmm.Marked g := by
  have hle : 0 + t.pmm.totalFrames ≤ maxFrames := by
    rw [zero_add, h.frames]
    exact totalFrames_le info
  rcases t.pmm.allocFrom_spec _ 0 hle with
    ⟨hnone, hall⟩ | ⟨f, pmm, hsome, hmarks, -, hlt, hf, hall⟩
  · rw [zero_add, h.frames] at hall
    exact .inl ⟨hnone, fun f hf => hall f (Nat.zero_le f) hf⟩
  · rw [zero_add, h.frames] at hlt
    exact .inr ⟨f, pmm, hsome, hmarks, hlt, hf, fun g hg => hall g (Nat.zero_le g) hg⟩

variable {addr : ℕ}

theorem Kept.alloc (h : Kept info t) (halloc : t.pmm.physAlloc = some (pmm, addr)) :
    Kept info ⟨pmm, if addr = 0 then t.held else addr :: t.held⟩ := by
  rcases h.physAlloc with ⟨hnone, -⟩ | ⟨f, pmm', hsome, hmarks, hlt, hf, -⟩
  · cases hnone.symm.trans halloc
    exact h
  · cases hsome.symm.trans halloc
    obtain ⟨hmanaged, hfresh⟩ := h.unmarked f hlt hf
    have hne : f * 4096 ≠ 0 := by
      have := hmanaged.2.1
      omega
    rw [if_neg hne]
    refine ⟨hmarks.frames.trans h.frames, fun g hg hmark => ?_, ?_,
      nodup_cons.mpr ⟨hfresh, h.nodup⟩⟩
    · have hgf : g ≠ f := by
        rintro rfl
        exact hmark (hmarks.here.mpr trivial)
      rw [hmarks.other g hgf] at hmark
      obtain ⟨hg, hnot⟩ := h.unmarked g hg hmark
      refine ⟨hg, fun hmem => ?_⟩
      rcases mem_cons.mp hmem with heq | hmem
      · omega
      · exact hnot hmem
    · intro a ha
      rcases mem_cons.mp ha with rfl | ha
      · exact ⟨f, rfl, hmanaged⟩
      · exact h.held a ha

theorem Kept.physFree (h : Kept info t) (hmem : addr ∈ t.held) :
    ∃ f pmm, addr = f * 4096 ∧ Managed info f ∧ t.pmm.physFree addr = some pmm ∧
      Pmm.Marks t.pmm pmm f False := by
  obtain ⟨f, rfl, hf⟩ := h.held addr hmem
  obtain ⟨pmm, hpmm, hmarks⟩ := t.pmm.unsetFrame_spec (hf.1.trans_le (totalFrames_le info))
  have hframe : f * 4096 / pageSize = f := Nat.mul_div_cancel f (by decide)
  refine ⟨f, { pmm with usedFrames := pmm.usedFrames - 1 }, rfl, hf, ?_,
    hmarks.frames, hmarks.here, hmarks.other⟩
  unfold Pmm.physFree
  rw [hframe, h.frames, if_pos hf.1, hpmm]
  rfl

theorem Kept.free (h : Kept info t) (hmem : addr ∈ t.held)
    (hfree : t.pmm.physFree addr = some pmm) : Kept info ⟨pmm, t.held.erase addr⟩ := by
  obtain ⟨f, pmm', rfl, hf, hpmm, hmarks⟩ := h.physFree hmem
  cases hpmm.symm.trans hfree
  refine ⟨hmarks.frames.trans h.frames, fun g hg hmark => ?_,
    fun a ha => h.held a (mem_of_mem_erase ha), h.nodup.erase _⟩
  by_cases hgf : g = f
  · rw [hgf]
    exact ⟨hf, h.nodup.not_mem_erase⟩
  · rw [hmarks.other g hgf] at hmark
    obtain ⟨hg, hnot⟩ := h.unmarked g hg hmark
    exact ⟨hg, fun hmem => hnot (mem_of_mem_erase hmem)⟩

theorem Reached.kept (hmem : info.memoryTotal.toNat + 4096 ≤ 2 ^ 64)
    (hend : info.kernelEnd < 2 ^ 64)
    (hin : ∀ addr, info.Visits addr → addr / 4096 < maxFrames) (ht : Reached info t) :
    Kept info t := by
  induction ht with
  | @boot fuel pmm hboot =>
    rcases Pmm.physInit_spec Pmm.static fuel hmem hend hin with hnone | ⟨pmm', hsome, hbooted⟩
    · cases hnone.symm.trans hboot
    · cases hsome.symm.trans hboot
      exact kept_boot hbooted
  | alloc _ halloc ih => exact ih.alloc halloc
  | free _ hmem hfree ih => exact ih.free hmem hfree

theorem Kept.physAlloc_first (h : Kept info t) {f : ℕ} (hf : f < info.totalFrames)
    (hmark : ¬ t.pmm.Marked f) (hall : ∀ g < f, t.pmm.Marked g) :
    ∃ pmm, t.pmm.physAlloc = some (pmm, f * 4096) ∧ Pmm.Marks t.pmm pmm f True := by
  rcases h.physAlloc with ⟨-, hfull⟩ | ⟨g, pmm, hsome, hmarks, -, hg, hbelow⟩
  · exact absurd (hfull f hf) hmark
  · have hfg : f = g := by
      rcases Nat.lt_trichotomy f g with hlt | heq | hlt
      · exact absurd (hbelow f hlt) hmark
      · exact heq
      · exact absurd (hall g hlt) hg
    exact hfg ▸ ⟨pmm, hsome, hmarks⟩

theorem Reached.hands_out (ht : Reached info t) (hkept : Kept info t) {f : ℕ}
    (hf : f < info.totalFrames) (hmark : ¬ t.pmm.Marked f) :
    ∃ u pmm, Reached info u ∧ u.pmm.physAlloc = some (pmm, f * 4096) := by
  have hbelow : ∀ g ≤ f, ∃ u, Reached info u ∧ Kept info u ∧ ¬ u.pmm.Marked f ∧
      ∀ h < g, u.pmm.Marked h := by
    intro g hg
    induction g with
    | zero => exact ⟨t, ht, hkept, hmark, fun h hh => absurd hh (Nat.not_lt_zero h)⟩
    | succ g ih =>
      obtain ⟨u, hu, hkept, hmark, hall⟩ := ih (by omega)
      by_cases hgm : u.pmm.Marked g
      · refine ⟨u, hu, hkept, hmark, fun h hh => ?_⟩
        rcases Nat.lt_succ_iff_lt_or_eq.mp hh with hlt | rfl
        · exact hall h hlt
        · exact hgm
      · obtain ⟨pmm, halloc, hmarks⟩ := hkept.physAlloc_first (by omega) hgm hall
        refine ⟨_, hu.alloc halloc, hkept.alloc halloc, ?_, fun h hh => ?_⟩
        · rw [hmarks.other f (by omega)]
          exact hmark
        · rcases Nat.lt_succ_iff_lt_or_eq.mp hh with hlt | rfl
          · exact (hmarks.other h hlt.ne).mpr (hall h hlt)
          · exact hmarks.here.mpr trivial
  obtain ⟨u, hu, hkept, hmark, hall⟩ := hbelow f le_rfl
  obtain ⟨pmm, halloc, -⟩ := hkept.physAlloc_first hf hmark hall
  exact ⟨u, pmm, hu, halloc⟩

end PmmRun

namespace BootInfo
variable {info : BootInfo}

theorem Reservable.visits_lt (h : info.Reservable) {addr : ℕ} (hv : info.Visits addr) :
    addr / 4096 < maxFrames := by
  have hle := hv.le_lastVisit
  unfold maxFrames
  rcases h with hsize | ⟨hlast, -⟩
  · have := hv.1
    have := hv.2.1
    unfold kernelEnd at this
    omega
  · omega

theorem Reservable.allows (h : info.Reservable) {f : ℕ} (hf : PmmRun.Managed info f)
    {held : List ℕ} (hfresh : f * 4096 ∉ held) : info.Allows held (f * 4096) := by
  obtain ⟨hlt, hlow, hvisit⟩ := hf
  have htotal : info.totalFrames ≤ info.memoryTotal.toNat / 4096 := Nat.min_le_left _ _
  refine ⟨by omega, by omega, fun x hbase hend hx => ?_, by omega, hfresh⟩
  rcases visited_or_lastFrame hbase hend (show x / 4096 = f by omega) with
    ⟨addr, hv, ha⟩ | ⟨hlast, hne⟩
  · exact hvisit addr hv ha
  · rcases h with hsize | ⟨-, heq | hlow' | hout⟩
    · unfold kernelEnd at hend
      omega
    · exact hne heq
    · omega
    · omega

theorem Reservable.protected (h : info.Reservable) (hend : info.kernelEnd < 2 ^ 64)
    (hmem : info.memoryTotal.toNat + 4096 ≤ 2 ^ 64) : info.Protected := by
  have hin : ∀ addr, info.Visits addr → addr / 4096 < maxFrames := fun _ => h.visits_lt
  refine ⟨fun fuel hbad => ?_, fun t ht => ?_, fun t ht addr ha => ?_⟩
  · rcases Pmm.physInit_spec Pmm.static fuel hmem hend hin with hnone | ⟨t, hsome, -⟩
    · cases hnone.symm.trans hbad
    · cases hsome.symm.trans hbad
  · have hkept := ht.kept hmem hend hin
    rcases hkept.physAlloc with ⟨hnone, -⟩ | ⟨f, pmm, hsome, -, hlt, hf, -⟩
    · exact ⟨_, _, hnone, .inl rfl⟩
    · obtain ⟨hmanaged, hfresh⟩ := hkept.unmarked f hlt hf
      exact ⟨_, _, hsome, .inr (h.allows hmanaged hfresh)⟩
  · obtain ⟨f, pmm, -, -, hfree, -⟩ := (ht.kept hmem hend hin).physFree ha
    rw [hfree]
    rfl

theorem protected_of_never (hmem : 2 ^ 64 < info.memoryTotal.toNat + 4096) : info.Protected := by
  have hnone : ∀ t, ¬ PmmRun.Reached info t := by
    intro t ht
    induction ht with
    | @boot fuel pmm hboot =>
      rw [Pmm.physInit_never _ _ hmem] at hboot
      cases hboot
    | alloc _ _ ih => exact ih
    | free _ _ _ ih => exact ih
  refine ⟨fun fuel hbad => ?_, fun t ht => absurd ht (hnone t), fun t ht => absurd ht (hnone t)⟩
  rw [Pmm.physInit_never _ _ hmem] at hbad
  cases hbad

theorem hands_out_lastFrame (hmem : info.memoryTotal.toNat + 4096 ≤ 2 ^ 64)
    (hlast : info.lastVisit < 128 * 1024 * 1024) (hne : info.lastFrame ≠ info.lastVisit / 4096)
    (hlow : 256 ≤ info.lastFrame) (hlt : info.lastFrame < info.totalFrames) :
    ∃ t pmm, PmmRun.Reached info t ∧ t.pmm.physAlloc = some (pmm, info.lastFrame * 4096) := by
  have hin : ∀ addr, info.Visits addr → addr / 4096 < maxFrames := by
    intro addr hv
    have := hv.le_lastVisit
    unfold maxFrames
    omega
  have hkernel : info.kernelEnd + 4096 ≤ 2 ^ 64 := by
    unfold lastVisit at hlast
    unfold kernelEnd
    omega
  obtain ⟨fuel, hsome⟩ := Pmm.physInit_isSome Pmm.static hmem (by omega) hkernel
  rcases Pmm.physInit_spec Pmm.static fuel hmem (by omega) hin with hnone | ⟨pmm, hpmm, hbooted⟩
  · rw [hnone] at hsome
    cases hsome
  · have hmark : ¬ pmm.Marked info.lastFrame := by
      rw [hbooted.marked _ (hlt.trans_le (PmmRun.totalFrames_le info)), not_or, not_or]
      refine ⟨by omega, by omega, ?_⟩
      rintro ⟨addr, hv, ha⟩
      have hle := hv.le_lastVisit
      have hbase := hv.1
      unfold lastFrame at hne ha
      unfold lastVisit kernelEnd at *
      omega
    exact (PmmRun.Reached.boot hpmm).hands_out (PmmRun.kept_boot hbooted) hlt hmark

theorem not_allows_lastFrame (hsize : info.kernelSize.toNat ≠ 0) (held : List ℕ) :
    ¬ info.Allows held (info.lastFrame * 4096) := by
  intro h
  apply h.kernel (info.kernelEnd - 1)
  · unfold kernelEnd
    omega
  · unfold kernelEnd
    omega
  · unfold lastFrame
    omega

theorem Protected.reservable (h : info.Protected) (hend : info.kernelEnd < 2 ^ 64)
    (hmem : info.memoryTotal.toNat + 4096 ≤ 2 ^ 64) : info.Reservable := by
  by_cases hsize : info.kernelSize.toNat = 0
  · exact .inl hsize
  · have hlast : info.lastVisit < 128 * 1024 * 1024 := by
      by_contra hout
      have hbad : maxFrames ≤ info.lastVisit / 4096 := by
        unfold maxFrames
        omega
      obtain ⟨fuel, hnone⟩ := Pmm.physInit_bad Pmm.static hmem hend (visits_lastVisit hsize) hbad
      exact h.boot fuel hnone
    refine .inr ⟨hlast, ?_⟩
    by_contra hfree
    rw [not_or, not_or, Nat.not_lt, Nat.not_le] at hfree
    obtain ⟨hne, hlow, hlt⟩ := hfree
    obtain ⟨u, pmm, hu, halloc⟩ := hands_out_lastFrame hmem hlast hne hlow hlt
    obtain ⟨_, _, halloc', hallowed⟩ := h.alloc u hu
    cases halloc.symm.trans halloc'
    rcases hallowed with hzero | hallowed
    · omega
    · exact not_allows_lastFrame hsize _ hallowed

end BootInfo

/-- For every boot information whose kernel range does not wrap around, reserved memory is protected
in every run exactly when the kernel can be reserved, or when booting never ends because the memory
ends in the last page of the address space. -/
theorem frames_protected_iff (info : BootInfo) (hend : info.kernelEnd < 2 ^ 64) :
    info.Protected ↔ info.Reservable ∨ 2 ^ 64 < info.memoryTotal.toNat + 4096 := by
  by_cases hmem : info.memoryTotal.toNat + 4096 ≤ 2 ^ 64
  · rw [or_iff_left (by omega)]
    exact ⟨fun h => h.reservable hend hmem, fun h => h.protected hend hmem⟩
  · exact iff_of_true (BootInfo.protected_of_never (by omega)) (.inr (by omega))

/-- A kernel of two pages that is aligned to a page. -/
def alignedBoot : BootInfo :=
  { memoryTotal := 0x4000000, kernelBase := 0x200000, kernelSize := 0x2000 }

theorem alignedBoot_protected : alignedBoot.Protected :=
  (frames_protected_iff alignedBoot (by decide)).mpr (.inl (by decide))

/-- A kernel of one page that starts in the middle of a page. -/
def unalignedBoot : BootInfo :=
  { memoryTotal := 0x4000000, kernelBase := 0x200800, kernelSize := 0x1000 }

/-- The page with the second half of the kernel is handed out. -/
theorem unalignedBoot_hands_out_kernel : ∃ t pmm, PmmRun.Reached unalignedBoot t ∧
    t.pmm.physAlloc = some (pmm, 0x201000) ∧ ¬ unalignedBoot.Allows t.held 0x201000 := by
  have hmem : unalignedBoot.memoryTotal.toNat + 4096 ≤ 2 ^ 64 := by decide
  have hsize : unalignedBoot.kernelSize.toNat ≠ 0 := by decide
  obtain ⟨t, pmm, ht, halloc⟩ :=
    BootInfo.hands_out_lastFrame hmem (by decide) (by decide) (by decide) (by decide)
  exact ⟨t, pmm, ht, halloc, BootInfo.not_allows_lastFrame hsize t.held⟩

end SageOS
