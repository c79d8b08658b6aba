import SageOS.SyscallResults

/-!
# The contract of `sys_open`

A failing open should leave the file system and the descriptors alone, and a succeeding one should
take the lowest free descriptor and start it at the end of the file when `O_APPEND` asks for it.
The call creates or truncates before it looks for a descriptor, and takes the size from a `stat`
that came before that.
-/
namespace SageOS
variable {σ : Type}
namespace Sys
variable (v : Vfs σ) (s : Sys σ)

def lowestFree : Option ℕ :=
  (List.range maxFd).find? fun i => 3 ≤ i ∧ (s.task.fdTable i).valid = false

/-- The call asks for the file to be created, or to be created anew in order to truncate it. -/
def AsksCreate (p : Bytes) (flags : UInt32) (st : VfsStat) : Prop :=
  (s.statOf v p st).1 < 0 ∧ flags &&& oCreat ≠ 0 ∨
    ¬ (s.statOf v p st).1 < 0 ∧ ¬ (flags &&& oCreat ≠ 0 ∧ flags &&& oExcl ≠ 0) ∧
      flags &&& oTrunc ≠ 0 ∧ (s.statOf v p st).2.1.type = .file

/-- A file is created or truncated: the request succeeds. -/
def Creates (p : Bytes) (flags : UInt32) (st : VfsStat) : Prop :=
  s.AsksCreate v p flags st ∧ ¬ s.createOf v p st < 0

/-- The call gets as far as the search for a descriptor. -/
def Proceeds (p : Bytes) (flags : UInt32) (st : VfsStat) : Prop :=
  (s.statOf v p st).1 < 0 ∧ flags &&& oCreat ≠ 0 ∧ ¬ s.createOf v p st < 0 ∨
    ¬ (s.statOf v p st).1 < 0 ∧ ¬ (flags &&& oCreat ≠ 0 ∧ flags &&& oExcl ≠ 0)

instance (p : Bytes) (flags : UInt32) (st : VfsStat) : Decidable (s.Creates v p flags st) :=
  inferInstanceAs (Decidable ((_ ∨ _) ∧ _))

instance (p : Bytes) (flags : UInt32) (st : VfsStat) : Decidable (s.Proceeds v p flags st) :=
  inferInstanceAs (Decidable (_ ∨ _))

def openedFd (path : Option CStr) (flags : UInt32) (st : VfsStat) : Option ℕ :=
  (s.admitted path (openRight flags)).bind fun p =>
    if s.Proceeds v p flags st then s.lowestFree else none

/-- The end of the file as an `off_t`. -/
def startOffset (p : Bytes) (flags : UInt32) (st : VfsStat) : ℤ :=
  if flags &&& oAppend ≠ 0 then
    if s.Creates v p flags st then 0 else toInt64 (s.statOf v p st).2.1.size
  else 0

structure OpenContract (path : Option CStr) (flags : UInt32) (st : VfsStat) : Prop where
  failed : s.openedFd v path flags st = none →
    (s.sysOpen v path flags st).2.kernel = s.kernel ∧
      ∀ p ∈ s.admitted path (openRight flags), ¬ s.Creates v p flags st
  opened : ∀ fd, s.openedFd v path flags st = some fd →
    (s.sysOpen v path flags st).1 = fd ∧
      (3 ≤ fd ∧ fd < maxFd ∧ (s.task.fdTable fd).valid = false ∧
        ∀ i, 3 ≤ i → i < fd → (s.task.fdTable i).valid = true) ∧
      ∀ p ∈ s.admitted path (openRight flags), ∃ e : FdEntry,
        (s.sysOpen v path flags st).2.kernel = (s.setFd fd e).kernel ∧
          e.offset = s.startOffset v p flags st

variable {v s} {path : Option CStr} {flags : UInt32} {st : VfsStat} {p : Bytes}

theorem sysOpen_kernel_of_not_admitted (h : s.admitted path (openRight flags) = none) :
    (s.sysOpen v path flags st).2 = s := by
  unfold sysOpen
  rcases path with _ | ⟨p, hz⟩
  · rfl
  · dsimp only
    by_cases hlen : vfsMaxPath ≤ p.length
    · rw [if_pos hlen]
    · rw [if_neg hlen, if_pos (s.not_admitted h hlen)]

theorem sysOpen_kernel_of_not_proceeds (h : s.admitted path (openRight flags) = some p)
    (hno : ¬ s.Proceeds v p flags st) : (s.sysOpen v path flags st).2.kernel = s.kernel := by
  obtain ⟨⟨p, hz⟩, rfl, rfl, hlen, hacc⟩ := s.admitted_eq_some h
  unfold sysOpen
  dsimp only at hlen hacc hno ⊢
  rw [if_neg (Nat.not_le.mpr hlen), if_neg (not_not.mpr hacc)]
  by_cases hstat : (v.vfsStat p st s.vfs).1 < 0
  · rw [if_pos hstat]
    by_cases hcreat : flags &&& oCreat ≠ 0
    · have hmake : (v.vfsCreate p (v.vfsStat p st s.vfs).2.2).1 < 0 := by
        by_contra hmake
        exact hno (.inl ⟨hstat, hcreat, hmake⟩)
      rw [if_pos hcreat, if_pos hmake]
    · rw [if_neg hcreat]
  · have hexcl : flags &&& oCreat ≠ 0 ∧ flags &&& oExcl ≠ 0 := by
      by_contra hexcl
      exact hno (.inr ⟨hstat, hexcl⟩)
    rw [if_neg hstat, if_pos hexcl]

theorem sysOpen_of_proceeds (h : s.admitted path (openRight flags) = some p)
    (hgo : s.Proceeds v p flags st) : ∃ s₁ : Sys σ, s₁.kernel = s.kernel ∧
      s.sysOpen v path flags st = s₁.installFd p flags (s.statOf v p st).2.1 := by
  obtain ⟨⟨p, hz⟩, rfl, rfl, hlen, hacc⟩ := s.admitted_eq_some h
  unfold Proceeds createOf statOf at hgo
  unfold sysOpen statOf
  dsimp only at hlen hacc hgo ⊢
  rw [if_neg (Nat.not_le.mpr hlen), if_neg (not_not.mpr hacc)]
  rcases hgo with ⟨hstat, hcreat, hmake⟩ | ⟨hstat, hexcl⟩
  · rw [if_pos hstat, if_pos hcreat, if_neg hmake]
    refine ⟨_, ?_, rfl⟩
    rfl
  · rw [if_neg hstat, if_neg hexcl]
    by_cases htrunc : flags &&& oTrunc ≠ 0 ∧ (v.vfsStat p st s.vfs).2.1.type = .file
    · rw [if_pos htrunc]
      refine ⟨_, ?_, rfl⟩
      rfl
    · rw [if_neg htrunc]
      refine ⟨_, ?_, rfl⟩
      rfl

variable {fd : ℕ}

theorem lowestFree_eq_some_iff :
    s.lowestFree = some fd ↔ 3 ≤ fd ∧ fd < maxFd ∧ (s.task.fdTable fd).valid = false ∧
      ∀ i, 3 ≤ i → i < fd → (s.task.fdTable i).valid = true := by
  unfold lowestFree
  rw [List.find?_range_eq_some]
  simp only [decide_eq_true_eq, List.mem_range, Bool.not_eq_true', decide_eq_false_iff_not, not_and,
    Bool.not_eq_false]
  constructor
  · rintro ⟨⟨hlo, hfree⟩, hlt, hbelow⟩
    exact ⟨hlo, hlt, hfree, fun i hi hlt => hbelow i hlt hi⟩
  · rintro ⟨hlo, hlt, hfree, hbelow⟩
    exact ⟨⟨hlo, hfree⟩, hlt, fun i hlt hi => hbelow i hi hlt⟩

variable {s₁ : Sys σ}

theorem lowestFree_congr (h : s₁.kernel = s.kernel) : s₁.lowestFree = s.lowestFree := by
  unfold lowestFree task
  rw [h]

theorem Creates.proceeds (h : s.Creates v p flags st) : s.Proceeds v p flags st := by
  obtain ⟨⟨hstat, hcreat⟩ | ⟨hstat, hexcl, -⟩, hmake⟩ := h
  · exact .inl ⟨hstat, hcreat, hmake⟩
  · exact .inr ⟨hstat, hexcl⟩

theorem installFd_of_none {size : VfsStat} (h : s₁.lowestFree = none) :
    (s₁.installFd p flags size).2 = s₁ := by
  unfold lowestFree at h
  unfold installFd
  rw [h]

theorem installFd_of_some {size : VfsStat} (h : s₁.lowestFree = some fd) :
    s₁.installFd p flags size = ((fd : ℤ), s₁.setFd fd
      { valid := true, path := strncpy 256 p, flags := flags,
        offset := if flags &&& oAppend ≠ 0 then toInt64 size.size else 0 }) := by
  unfold lowestFree at h
  unfold installFd
  rw [h]

theorem setFd_kernel_congr (h : s₁.kernel = s.kernel) (fd : ℕ) (e : FdEntry) :
    (s₁.setFd fd e).kernel = (s.setFd fd e).kernel := by
  unfold setFd
  rw [h]

theorem setFd_kernel_inj {e e' : FdEntry}
    (h : (s.setFd fd e).kernel = (s.setFd fd e').kernel) : e = e' := by
  have hentry (e : FdEntry) : (s.setFd fd e).task.fdTable fd = e := by
    simp [setFd, task, Kernel.modifyTask, Kernel.setTask]
  rw [← hentry e, ← hentry e']
  unfold task
  rw [h]

theorem opened_offset_iff (h : s.admitted path (openRight flags) = some p)
    (hgo : s.Proceeds v p flags st) (hfd : s.lowestFree = some fd) :
    (s.sysOpen v path flags st).1 = fd ∧
      ((∃ e : FdEntry, (s.sysOpen v path flags st).2.kernel = (s.setFd fd e).kernel ∧
          e.offset = s.startOffset v p flags st) ↔
        (s.Creates v p flags st → flags &&& oAppend ≠ 0 →
          toInt64 (s.statOf v p st).2.1.size = 0)) := by
  obtain ⟨s₁, hk, hopen⟩ := sysOpen_of_proceeds h hgo
  rw [hopen, installFd_of_some ((lowestFree_congr hk).trans hfd)]
  refine ⟨rfl, ?_⟩
  have hoffset : (if flags &&& oAppend ≠ 0 then toInt64 (s.statOf v p st).2.1.size else 0) =
      s.startOffset v p flags st ↔
      (s.Creates v p flags st → flags &&& oAppend ≠ 0 →
        toInt64 (s.statOf v p st).2.1.size = 0) := by
    unfold startOffset
    by_cases happ : flags &&& oAppend ≠ 0
    · rw [if_pos happ, if_pos happ]
      by_cases hc : s.Creates v p flags st
      · rw [if_pos hc]
        exact ⟨fun hz _ _ => hz, fun hz => hz hc happ⟩
      · rw [if_neg hc]
        exact ⟨fun _ hc' => absurd hc' hc, fun _ => rfl⟩
    · rw [if_neg happ, if_neg happ]
      exact ⟨fun _ _ happ' => absurd happ' happ, fun _ => rfl⟩
  rw [← hoffset]
  rw [setFd_kernel_congr hk]
  constructor
  · rintro ⟨e, he, hstart⟩
    rw [← setFd_kernel_inj he] at hstart
    exact hstart
  · intro hstart
    exact ⟨_, rfl, hstart⟩

end Sys

open Sys

/-- `sys_open` keeps its contract exactly when a call that creates or truncates finds a free
descriptor and, with `O_APPEND`, found the size 0 before. -/
theorem open_contract_iff (v : Vfs σ) (s : Sys σ) (path : Option CStr) (flags : UInt32)
    (st : VfsStat) :
    s.OpenContract v path flags st ↔
      ∀ p ∈ s.admitted path (openRight flags), s.Creates v p flags st →
        (∃ i, 3 ≤ i ∧ i < maxFd ∧ (s.task.fdTable i).valid = false) ∧
          (flags &&& oAppend ≠ 0 → toInt64 (s.statOf v p st).2.1.size = 0) := by
  cases hadm : s.admitted path (openRight flags) with
  | none =>
    have hnone : s.openedFd v path flags st = none := by
      unfold openedFd
      rw [hadm]
      rfl
    refine iff_of_true ⟨fun _ => ?_, fun fd hfd => ?_⟩ nofun
    · rw [sysOpen_kernel_of_not_admitted hadm, hadm]
      exact ⟨rfl, nofun⟩
    · rw [hnone] at hfd
      cases hfd
  | some p =>
    have hopened : s.openedFd v path flags st =
        if s.Proceeds v p flags st then s.lowestFree else none := by
      unfold openedFd
      rw [hadm]
      rfl
    simp only [Option.mem_some_iff, forall_eq']
    by_cases hgo : s.Proceeds v p flags st
    · rw [if_pos hgo] at hopened
      cases hfree : s.lowestFree with
      | none =>
        rw [hfree] at hopened
        have hfull : ¬ ∃ i, 3 ≤ i ∧ i < maxFd ∧ (s.task.fdTable i).valid = false := by
          rintro ⟨i, hlo, hlt, hvalid⟩
          have hi := List.find?_eq_none.mp hfree i (List.mem_range.mpr hlt)
          exact hi (decide_eq_true ⟨hlo, hvalid⟩)
        have hkernel : (s.sysOpen v path flags st).2.kernel = s.kernel := by
          obtain ⟨s₁, hk, hopen⟩ := sysOpen_of_proceeds hadm hgo
          rw [hopen, installFd_of_none ((lowestFree_congr hk).trans hfree), hk]
        constructor
        · intro h hc
          exact absurd hc ((h.failed hopened).2 p hadm)
        · intro h
          refine ⟨fun _ => ⟨hkernel, ?_⟩, fun fd hfd => ?_⟩
          · rw [hadm]
            rintro q ⟨⟩ hc
            exact hfull (h hc).1
          · rw [hopened] at hfd
            cases hfd
      | some fd =>
        rw [hfree] at hopened
        obtain ⟨hret, hiff⟩ := opened_offset_iff hadm hgo hfree
        have hlow := lowestFree_eq_some_iff.mp hfree
        constructor
        · intro h hc
          refine ⟨⟨fd, hlow.1, hlow.2.1, hlow.2.2.1⟩, ?_⟩
          exact hiff.mp ((h.opened fd hopened).2.2 p hadm) hc
        · intro h
          refine ⟨fun hnone => ?_, fun fd' hfd' => ?_⟩
          · rw [hopened] at hnone
            cases hnone
          · obtain rfl := Option.some.inj (hopened.symm.trans hfd')
            refine ⟨hret, hlow, ?_⟩
            rw [hadm]
            rintro q ⟨⟩
            exact hiff.mpr fun hc => (h hc).2
    · rw [if_neg hgo] at hopened
      have hno : ¬ s.Creates v p flags st := fun hc => hgo hc.proceeds
      refine iff_of_true ⟨fun _ => ?_, fun fd hfd => ?_⟩ fun hc => absurd hc hno
      · refine ⟨sysOpen_kernel_of_not_proceeds hadm hgo, ?_⟩
        rw [hadm]
        rintro q ⟨⟩
        exact hno
      · rw [hopened] at hfd
        cases hfd

/-- A file system with the one file `/f`, of which only the size is kept. -/
def oneFile : Vfs (Option ℕ) where
  mounts := [⟨bytes "/", {
    stat := some fun _ out n => n.elim (vfsENOENT, out, n) fun size =>
      (0, { out with type := .file, size := size }, n)
    create := some fun _ _ _ => (0, (), some 0) }, true⟩]
  bridge := none

def oneFileSys (valid : Bool) (size : Option ℕ) : Sys (Option ℕ) where
  kernel := { tasks := fun _ => { state := .running, fdTable := fun _ => { valid := valid } } }
  vfs := ⟨size, []⟩

def pathF : CStr := ⟨bytes "/f", by decide⟩

/-- With all descriptors in use the file is created although the call fails. With `O_TRUNC` and
`O_APPEND` the file of 5 bytes is emptied and the descriptor starts at 5. -/
theorem open_breaks_contract :
    (let full := (oneFileSys true none).sysOpen oneFile (some pathF) oCreat {}
     full.1 = 28 ∧ full.2.vfs.fs = some 0) ∧
    (let emptied := (oneFileSys false (some 5)).sysOpen oneFile (some pathF)
        (oWronly ||| oTrunc ||| oAppend) {}
     emptied.1 = 3 ∧ emptied.2.vfs.fs = some 0 ∧ (emptied.2.task.fdTable 3).offset = 5) := by
  decide +kernel

end SageOS
