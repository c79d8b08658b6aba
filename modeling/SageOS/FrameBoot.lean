import SageOS.FrameBitmap

/-!
# Booting the frame allocator

What the two loops of `phys_init` leave behind. The first one clears the usable frames; it never
ends when the end of memory is in the last page of the address space, because its counter wraps
around. The second one marks one frame for each step of a page from the base of the kernel on, and
leaves the bitmap when a step is at 128 megabytes or above.
-/
namespace SageOS
namespace Pmm
section Loops
variable {body : UInt64 → Pmm → Option Pmm} {stop : UInt64}
variable {addr : UInt64}

theorem eachPage_of_lt (h : addr < stop) (n : ℕ) {s t : Pmm} (hbody : body addr s = some t) :
    eachPage body stop (n + 1) addr s = eachPage body stop n (addr + 4096) t := by
  rw [eachPage, if_pos h, hbody]

theorem eachPage_of_not_lt (h : ¬ addr < stop) (n : ℕ) (s : Pmm) :
    eachPage body stop (n + 1) addr s = some (some s) := by
  rw [eachPage, if_neg h]

theorem toNat_add_page (h : addr.toNat + 4096 < 2 ^ 64) :
    (addr + 4096).toNat = addr.toNat + 4096 := by
  exact Nat.mod_eq_of_lt h

theorem eachPage_spec {Inv : UInt64 → Pmm → Prop}
    (hstep : ∀ addr s, addr < stop → Inv addr s → ∃ t, body addr s = some t ∧ Inv (addr + 4096) t)
    (n : ℕ) {s : Pmm} (h : Inv addr s) :
    eachPage body stop n addr s = none ∨
      ∃ t last, eachPage body stop n addr s = some (some t) ∧ ¬ last < stop ∧ Inv last t := by
  induction n generalizing addr s with
  | zero => exact .inl rfl
  | succ n ih =>
    by_cases hlt : addr < stop
    · obtain ⟨t, ht, hinv⟩ := hstep addr s hlt h
      rw [eachPage_of_lt hlt n ht]
      exact ih hinv
    · exact .inr ⟨s, addr, eachPage_of_not_lt hlt n s, hlt, h⟩

theorem eachPage_isSome (hstop : stop.toNat + 4096 ≤ 2 ^ 64) {n : ℕ}
    (hn : stop.toNat ≤ addr.toNat + 4096 * n) (s : Pmm) :
    (eachPage body stop (n + 1) addr s).isSome := by
  induction n generalizing addr s with
  | zero =>
    rw [eachPage_of_not_lt (by rw [UInt64.lt_iff_toNat_lt]; omega)]
    rfl
  | succ n ih =>
    by_cases hlt : addr < stop
    · cases hbody : body addr s with
      | none =>
        rw [eachPage, if_pos hlt, hbody]
        rfl
      | some t =>
        rw [eachPage_of_lt hlt _ hbody]
        rw [UInt64.lt_iff_toNat_lt] at hlt
        apply ih
        rw [toNat_add_page (by omega)]
        omega
    · rw [eachPage_of_not_lt hlt]
      rfl

/-- Among the multiples of a page the counter never reaches an end in the last page. -/
theorem eachPage_never (hstop : 2 ^ 64 < stop.toNat + 4096) {Inv : Pmm → Prop}
    (hbody : ∀ addr s, Inv s → ∃ t, body addr s = some t ∧ Inv t) (n : ℕ)
    (haddr : addr.toNat % 4096 = 0) {s : Pmm} (hs : Inv s) :
    eachPage body stop n addr s = none := by
  induction n generalizing addr s with
  | zero => rfl
  | succ n ih =>
    have hlt : addr < stop := by
      have := addr.toNat_lt
      rw [UInt64.lt_iff_toNat_lt]
      omega
    obtain ⟨t, ht, hinv⟩ := hbody addr s hs
    rw [eachPage_of_lt hlt n ht]
    apply ih _ hinv
    change (addr.toNat + 4096) % 2 ^ 64 % 4096 = 0
    omega

theorem eachPage_bad {bad : UInt64} (hbad : bad < stop) (hbody : ∀ s, body bad s = none) {k n : ℕ}
    (hn : k < n) (hk : addr.toNat + 4096 * k = bad.toNat) (s : Pmm) :
    eachPage body stop n addr s = some none := by
  obtain ⟨n, rfl⟩ : ∃ m, n = m + 1 := ⟨n - 1, by omega⟩
  induction k generalizing addr s n with
  | zero =>
    obtain rfl : addr = bad := UInt64.toNat_inj.mp hk
    rw [eachPage, if_pos hbad, hbody]
  | succ k ih =>
    have hlt : addr < stop := by
      rw [UInt64.lt_iff_toNat_lt] at hbad ⊢
      omega
    cases hstep : body addr s with
    | none => rw [eachPage, if_pos hlt, hstep]
    | some t =>
      have hbound := bad.toNat_lt
      rw [eachPage_of_lt hlt _ hstep]
      obtain ⟨n, rfl⟩ : ∃ m, n = m + 1 := ⟨n - 1, by omega⟩
      refine ih ?_ t n (by omega)
      rw [toNat_add_page (by omega)]
      omega

end Loops
end Pmm

namespace BootInfo

/-- The end of the kernel, where the sum does not wrap around. -/
def kernelEnd (info : BootInfo) : ℕ := info.kernelBase.toNat + info.kernelSize.toNat

def totalFrames (info : BootInfo) : ℕ := min (info.memoryTotal.toNat / pageSize) maxFrames

def Visits (info : BootInfo) (addr : ℕ) : Prop :=
  info.kernelBase.toNat ≤ addr ∧ addr < info.kernelEnd ∧
    addr % 4096 = info.kernelBase.toNat % 4096

end BootInfo

namespace Pmm

structure Booted (info : BootInfo) (s : Pmm) : Prop where
  frames : s.totalFrames = info.totalFrames
  marked : ∀ f < maxFrames, s.Marked f ↔
    f < 256 ∨ info.totalFrames ≤ f ∨ ∃ addr, info.Visits addr ∧ addr / 4096 = f

theorem marked_full {s : Pmm} (h : ∀ i < bitmapSize, s.bitmap i = 0xFF#8) {f : ℕ}
    (hf : f < maxFrames) : s.Marked f := by
  have hall : ∀ k < 8, (0xFF#8).getLsbD k = true := by decide
  unfold Marked
  rw [h _ (index_lt hf)]
  exact hall _ (Nat.mod_lt _ (by omega))

theorem freeUsable_spec (addr : UInt64) {s : Pmm} (hs : s.totalFrames ≤ maxFrames) :
    ∃ t, freeUsable addr s = some t ∧ t.totalFrames = s.totalFrames ∧
      ∀ f, t.Marked f ↔ s.Marked f ∧ ¬ (f = addr.toNat / 4096 ∧ f < s.totalFrames) := by
  change ∃ t, (if addr.toNat / 4096 < s.totalFrames then _ else _) = some t ∧ _
  by_cases hlt : addr.toNat / 4096 < s.totalFrames
  · rw [if_pos hlt]
    obtain ⟨t, ht, hmarks⟩ := s.unsetFrame_spec (hlt.trans_le hs)
    refine ⟨t, ht, hmarks.frames, fun f => ?_⟩
    by_cases hf : f = addr.toNat / 4096
    · rw [hf, hmarks.here]
      exact iff_of_false not_false fun h => h.2 ⟨rfl, hlt⟩
    · rw [hmarks.other f hf]
      exact (and_iff_left fun h => hf h.1).symm
  · rw [if_neg hlt]
    refine ⟨s, rfl, rfl, fun f => (and_iff_left ?_).symm⟩
    rintro ⟨rfl, h⟩
    exact hlt h

theorem eachPage_freeUsable {memoryTotal : UInt64} (hmem : memoryTotal.toNat + 4096 ≤ 2 ^ 64)
    {s : Pmm} (hs : s.totalFrames = min (memoryTotal.toNat / 4096) maxFrames)
    (hfull : ∀ f < maxFrames, s.Marked f) (n : ℕ) :
    eachPage freeUsable memoryTotal n 0x100000 s = none ∨
      ∃ t, eachPage freeUsable memoryTotal n 0x100000 s = some (some t) ∧
        t.totalFrames = s.totalFrames ∧
        ∀ f < maxFrames, t.Marked f ↔ f < 256 ∨ s.totalFrames ≤ f := by
  let Inv : UInt64 → Pmm → Prop := fun addr t => addr.toNat % 4096 = 0 ∧ 256 ≤ addr.toNat / 4096 ∧
    t.totalFrames = s.totalFrames ∧ ∀ f < maxFrames,
      t.Marked f ↔ f < 256 ∨ s.totalFrames ≤ f ∨ addr.toNat / 4096 ≤ f
  have hstart : Inv 0x100000 s := by
    refine ⟨rfl, le_rfl, rfl, fun f hf => iff_of_true (hfull f hf) ?_⟩
    change f < 256 ∨ _ ∨ 256 ≤ f
    omega
  have hle : s.totalFrames ≤ maxFrames := hs ▸ Nat.min_le_right _ _
  have hstep : ∀ addr t, addr < memoryTotal → Inv addr t →
      ∃ t', freeUsable addr t = some t' ∧ Inv (addr + 4096) t' := by
    rintro addr t hlt ⟨hpage, hmin, hframes, hmarked⟩
    obtain ⟨t', ht', hframes', hmarked'⟩ := freeUsable_spec addr (hframes ▸ hle)
    rw [UInt64.lt_iff_toNat_lt] at hlt
    have hnext := toNat_add_page (show addr.toNat + 4096 < 2 ^ 64 by omega)
    refine ⟨t', ht', by omega, by omega, hframes'.trans hframes, fun f hf => ?_⟩
    rw [hmarked' f, hmarked f hf, hnext, hframes]
    omega
  rcases eachPage_spec hstep n hstart with hnone | ⟨t, last, ht, hlast, -, -, hframes, hmarked⟩
  · exact .inl hnone
  · refine .inr ⟨t, ht, hframes, fun f hf => ?_⟩
    rw [UInt64.lt_iff_toNat_lt] at hlast
    rw [hmarked f hf]
    omega

theorem eachPage_reservePage {info : BootInfo} (hend : info.kernelEnd < 2 ^ 64)
    (hin : ∀ addr, info.Visits addr → addr / 4096 < maxFrames) (s : Pmm) (n : ℕ) :
    eachPage reservePage (info.kernelBase + info.kernelSize) n info.kernelBase s = none ∨
      ∃ t, eachPage reservePage (info.kernelBase + info.kernelSize) n info.kernelBase s =
          some (some t) ∧ t.totalFrames = s.totalFrames ∧
        ∀ f, t.Marked f ↔ s.Marked f ∨ ∃ addr, info.Visits addr ∧ addr / 4096 = f := by
  let Inv : UInt64 → Pmm → Prop := fun addr t => info.kernelBase.toNat ≤ addr.toNat ∧
    addr.toNat % 4096 = info.kernelBase.toNat % 4096 ∧ t.totalFrames = s.totalFrames ∧
    ∀ f, t.Marked f ↔ s.Marked f ∨ ∃ a < addr.toNat, info.Visits a ∧ a / 4096 = f
  have hstop : (info.kernelBase + info.kernelSize).toNat = info.kernelEnd := by
    exact Nat.mod_eq_of_lt hend
  have hstart : Inv info.kernelBase s := by
    refine ⟨le_rfl, rfl, rfl, fun f => ⟨.inl, ?_⟩⟩
    rintro (h | ⟨a, hlt, hvisit, -⟩)
    · exact h
    · exact absurd hvisit.1 (Nat.not_le.mpr hlt)
  have hstep : ∀ addr t, addr < info.kernelBase + info.kernelSize → Inv addr t →
      ∃ t', reservePage addr t = some t' ∧ Inv (addr + 4096) t' := by
    rintro addr t hlt ⟨hbase, hpage, hframes, hmarked⟩
    rw [UInt64.lt_iff_toNat_lt, hstop] at hlt
    have hvisit : info.Visits addr.toNat := ⟨hbase, hlt, hpage⟩
    have hframe := hin _ hvisit
    obtain ⟨t', ht', hmarks⟩ := t.setFrame_spec hframe
    have hlow : addr.toNat + 4096 < 2 ^ 64 := by
      unfold maxFrames at hframe
      omega
    have hnext := toNat_add_page hlow
    refine ⟨t', ht', by omega, by omega, hmarks.frames.trans hframes, fun f => ?_⟩
    by_cases hf : f = addr.toNat / 4096
    · rw [hf, hmarks.here]
      exact iff_of_true trivial (.inr ⟨addr.toNat, by omega, hvisit, rfl⟩)
    · rw [hmarks.other f hf, hmarked f]
      refine or_congr_right ⟨?_, ?_⟩
      · rintro ⟨a, ha, hva, rfl⟩
        exact ⟨a, by omega, hva, rfl⟩
      · rintro ⟨a, ha, hva, rfl⟩
        have := hva.2.2
        exact ⟨a, by omega, hva, rfl⟩
  rcases eachPage_spec hstep n hstart with hnone | ⟨t, last, ht, hlast, hbase, -, hframes, hmarked⟩
  · exact .inl hnone
  · refine .inr ⟨t, ht, hframes, fun f => ?_⟩
    rw [UInt64.lt_iff_toNat_lt, hstop] at hlast
    rw [hmarked f]
    refine or_congr_right ⟨?_, ?_⟩
    · rintro ⟨a, -, hva, rfl⟩
      exact ⟨a, hva, rfl⟩
    · rintro ⟨a, hva, rfl⟩
      have := hva.2.1
      exact ⟨a, by omega, hva, rfl⟩

def reset (s : Pmm) (info : BootInfo) : Pmm :=
  { s with
    bitmap := fun i => if i < bitmapSize then 0xFF#8 else s.bitmap i
    totalFrames := info.totalFrames }

theorem physInit_eq (n : ℕ) (info : BootInfo) (s : Pmm) : physInit n info s =
    match eachPage freeUsable info.memoryTotal n 0x100000 (s.reset info) with
    | none => none
    | some none => some none
    | some (some s) =>
      eachPage reservePage (info.kernelBase + info.kernelSize) n info.kernelBase s := rfl

theorem marked_reset (s : Pmm) (info : BootInfo) {f : ℕ} (hf : f < maxFrames) :
    (s.reset info).Marked f := marked_full (fun _ hi => if_pos hi) hf

variable {info : BootInfo} (s : Pmm) (n : ℕ)

theorem physInit_never (hmem : 2 ^ 64 < info.memoryTotal.toNat + 4096) :
    physInit n info s = none := by
  have hbody : ∀ addr t, t.totalFrames ≤ maxFrames →
      ∃ t', freeUsable addr t = some t' ∧ t'.totalFrames ≤ maxFrames := by
    intro addr t ht
    obtain ⟨t', ht', hframes, -⟩ := freeUsable_spec addr ht
    exact ⟨t', ht', hframes ▸ ht⟩
  rw [physInit_eq, eachPage_never hmem hbody n rfl (Nat.min_le_right _ _)]

variable (hmem : info.memoryTotal.toNat + 4096 ≤ 2 ^ 64) (hend : info.kernelEnd < 2 ^ 64)

include hmem hend

theorem physInit_spec (hin : ∀ addr, info.Visits addr → addr / 4096 < maxFrames) :
    physInit n info s = none ∨ ∃ t, physInit n info s = some (some t) ∧ Booted info t := by
  rw [physInit_eq]
  rcases eachPage_freeUsable hmem rfl (fun f hf => marked_reset s info hf) n with
    hnone | ⟨t, ht, hframes, hmarked⟩
  · rw [hnone]
    exact .inl rfl
  · rw [ht]
    rcases eachPage_reservePage hend hin t n with hnone | ⟨u, hu, hframes', hmarked'⟩
    · exact .inl hnone
    · refine .inr ⟨u, hu, hframes'.trans hframes, fun f hf => ?_⟩
      rw [hmarked' f, hmarked f hf, or_assoc]
      rfl

theorem physInit_bad {bad : ℕ} (hbad : info.Visits bad) (hout : maxFrames ≤ bad / 4096) :
    ∃ n, physInit n info s = some none := by
  have hstop : (info.kernelBase + info.kernelSize).toNat = info.kernelEnd := by
    exact Nat.mod_eq_of_lt hend
  obtain ⟨hbase, hlt, hpage⟩ := hbad
  have hnat : (UInt64.ofNat bad).toNat = bad := Nat.mod_eq_of_lt (hlt.trans hend)
  refine ⟨info.memoryTotal.toNat + bad + 1, ?_⟩
  have hfirst := @eachPage_isSome freeUsable _ _ hmem _
    (show info.memoryTotal.toNat ≤ (0x100000 : UInt64).toNat +
      4096 * (info.memoryTotal.toNat + bad) by omega) (s.reset info)
  rw [physInit_eq]
  rcases eachPage_freeUsable hmem rfl (fun f hf => marked_reset s info hf)
    (info.memoryTotal.toNat + bad + 1) with hnone | ⟨t, ht, -, -⟩
  · rw [hnone] at hfirst
    cases hfirst
  · rw [ht]
    have hreached : UInt64.ofNat bad < info.kernelBase + info.kernelSize := by
      rw [UInt64.lt_iff_toNat_lt, hstop, hnat]
      exact hlt
    have hnone : ∀ t, reservePage (UInt64.ofNat bad) t = none := by
      intro t
      apply setFrame_eq_none
      rw [hnat]
      exact hout
    have hsteps : info.kernelBase.toNat + 4096 * ((bad - info.kernelBase.toNat) / 4096) =
        (UInt64.ofNat bad).toNat := by
      omega
    exact eachPage_bad hreached hnone (by omega) hsteps t

theorem physInit_isSome (hkernel : info.kernelEnd + 4096 ≤ 2 ^ 64) :
    ∃ n, (physInit n info s).isSome := by
  have hstop : (info.kernelBase + info.kernelSize).toNat = info.kernelEnd := by
    exact Nat.mod_eq_of_lt hend
  refine ⟨info.memoryTotal.toNat + info.kernelEnd + 1, ?_⟩
  have hfirst := @eachPage_isSome freeUsable _ _ hmem _
    (show info.memoryTotal.toNat ≤ (0x100000 : UInt64).toNat +
      4096 * (info.memoryTotal.toNat + info.kernelEnd) by omega) (s.reset info)
  rw [physInit_eq]
  cases hrun : eachPage freeUsable info.memoryTotal (info.memoryTotal.toNat + info.kernelEnd + 1)
      0x100000 (s.reset info) with
  | none =>
    rw [hrun] at hfirst
    cases hfirst
  | some r =>
    cases r with
    | none => rfl
    | some t =>
      apply eachPage_isSome (hstop ▸ hkernel)
      omega

end Pmm
end SageOS
