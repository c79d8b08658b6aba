import SageOS.PosixCalls

/-!
# Which results can be trusted

The thirteen calls are compared with what happened below them. A call is honest exactly when a
lower layer failed and its answer was handed on unchanged, or when nothing failed and the value to
return is not negative. Refusals by the call itself, and the failures of `vfs_stat` that the calls
translate, come back as positive numbers.
-/
namespace SageOS
open Option Elf
variable {σ : Type}

/-- How a result relates to failure: one that is handed on is negative, any other failure is not,
and a success is negative when its value is not representable. -/
structure Reported (r : ℤ) (failed handedOn representable : Prop) : Prop where
  on : handedOn → failed ∧ r < 0
  off : failed → ¬ handedOn → 0 ≤ r
  ok : ¬ failed → (0 ≤ r ↔ representable)

variable {r : ℤ}

theorem Reported.result_iff {failed handedOn representable : Prop}
    (h : Reported r failed handedOn representable) :
    (r < 0 ↔ failed) ↔ handedOn ∨ ¬ failed ∧ representable := by
  by_cases hh : handedOn
  · simp [hh, h.on hh]
  · by_cases hf : failed
    · simpa [hh, hf] using h.off hf hh
    · simp [hh, hf, ← h.ok hf]

theorem Reported.of_checked {refused : Prop} {below : Prop} (href : refused → 0 ≤ r)
    (hbelow : ¬ refused → (r < 0 ↔ below)) (hexcl : below → ¬ refused) :
    Reported r (refused ∨ below) below True where
  on h := ⟨.inr h, (hbelow (hexcl h)).mpr h⟩
  off hf hnot := href (hf.resolve_right hnot)
  ok hok := by
    obtain ⟨hr, hb⟩ := not_or.mp hok
    simpa using (hbelow hr).not.mpr hb

theorem Reported.of_nonneg {failed : Prop} (h : 0 ≤ r) : Reported r failed False True where
  on := False.elim
  off _ _ := h
  ok _ := iff_of_true h trivial

namespace Sys
variable (s : Sys σ)
variable {path : Option CStr} {right : UInt32} {p : Bytes}

theorem admitted_eq_some (h : s.admitted path right = some p) :
    ∃ q, path = some q ∧ q.chars = p ∧ p.length < vfsMaxPath ∧ s.mayAccess p right := by
  unfold admitted at h
  rw [filter_eq_some_iff, map_eq_some_iff] at h
  obtain ⟨⟨q, hq, hp⟩, hok⟩ := h
  exact ⟨q, hq, hp, by simpa using hok⟩

theorem not_admitted {q : CStr} (h : s.admitted (some q) right = none)
    (hlen : ¬ vfsMaxPath ≤ q.chars.length) : ¬ s.mayAccess q.chars right := by
  unfold admitted at h
  simpa [Nat.not_le.mp hlen] using h

def checkPath (path : Option CStr) (right : UInt32) (body : Bytes → ℤ × Sys σ) : ℤ × Sys σ :=
  match path with
  | none => (-vfsEINVAL, s)
  | some ⟨p, _⟩ =>
    if vfsMaxPath ≤ p.length then (-vfsEINVAL, s)
    else if ¬ s.mayAccess p right then (-vfsEACCES, s)
    else body p

theorem checkPath_of_admitted (body : Bytes → ℤ × Sys σ) (h : s.admitted path right = some p) :
    s.checkPath path right body = body p := by
  obtain ⟨⟨p, hz⟩, rfl, rfl, hlen, hacc⟩ := s.admitted_eq_some h
  unfold checkPath
  dsimp only at hlen hacc ⊢
  rw [if_neg (Nat.not_le.mpr hlen), if_neg (not_not.mpr hacc)]

theorem checkPath_of_not_admitted (body : Bytes → ℤ × Sys σ) (h : s.admitted path right = none) :
    0 ≤ (s.checkPath path right body).1 := by
  unfold checkPath
  rcases path with _ | ⟨p, hz⟩
  · simp [vfsEINVAL]
  · dsimp only
    split_ifs with hlen hacc
    · simp [vfsEINVAL]
    · exact absurd hacc (s.not_admitted h hlen)
    · simp [vfsEACCES]

variable (v : Vfs σ)

theorem reported_sysModify (op : Bytes → VfsState σ → ℤ × Unit × VfsState σ) (path : Option CStr) :
    Reported (s.sysModify op path).1 (s.admitted path ipcCapRightVfsWrite = none ∨
        ∃ p ∈ s.admitted path ipcCapRightVfsWrite, (op p s.vfs).1 < 0)
      (∃ p ∈ s.admitted path ipcCapRightVfsWrite, (op p s.vfs).1 < 0) True := by
  have hcheck : s.sysModify op path = s.checkPath path ipcCapRightVfsWrite fun p =>
      ((op p s.vfs).1, { s with vfs := (op p s.vfs).2.2 }) := rfl
  rw [hcheck]
  apply Reported.of_checked
  · exact s.checkPath_of_not_admitted _
  · intro hp
    obtain ⟨p, hp⟩ := ne_none_iff_exists'.mp hp
    rw [s.checkPath_of_admitted _ hp, hp]
    simp
  · rintro ⟨p, hp, -⟩ hnone
    simp [hnone] at hp

theorem reported_sysChdir (path : Option CStr) (st : VfsStat) (failed : Prop) :
    Reported (s.sysChdir v path st).1 failed False True := by
  apply Reported.of_nonneg
  unfold sysChdir
  rcases path with _ | ⟨p, hz⟩
  · simp [vfsEINVAL]
  · dsimp only
    split_ifs <;> simp [vfsEINVAL, vfsEACCES, vfsENOENT, vfsENOTDIR]

theorem reported_sysClose (fd : ℤ) (failed : Prop) :
    Reported (s.sysClose fd).1 failed False True := by
  apply Reported.of_nonneg
  unfold sysClose
  cases s.validFd fd <;> simp [vfsEINVAL]

theorem reported_sysDup2 (oldfd newfd : ℤ) (failed : Prop) :
    Reported (s.sysDup2 oldfd newfd).1 failed False True := by
  apply Reported.of_nonneg
  unfold sysDup2
  cases s.validFd oldfd with
  | none => simp [vfsEINVAL]
  | some i =>
    split_ifs with hnew
    · simp [vfsEINVAL]
    · exact not_lt.mp (not_or.mp hnew).1

theorem reported_sysFstat (fd : ℤ) (buf : Option StatBuf) (st : VfsStat) (failed : Prop) :
    Reported (s.sysFstat v fd buf st).1 failed False True := by
  apply Reported.of_nonneg
  unfold sysFstat
  cases buf with
  | none => simp [vfsEINVAL]
  | some old =>
    cases s.validFd fd with
    | none => simp [vfsEINVAL]
    | some i =>
      dsimp only
      split_ifs <;> simp [vfsEio]

theorem validFd_eq_some {fd : ℤ} {i : ℕ} (h : s.validFd fd = some i) : fd = i := by
  unfold validFd at h
  split_ifs at h with hok
  rw [← some.inj h, Int.toNat_of_nonneg hok.1]

theorem usable_cases (fd : ℤ) (right : UInt32) : s.validFd fd = none ∧ s.usable fd right = none ∨
    ∃ i, s.validFd fd = some i ∧
      (s.usable fd right = none ∧ ¬ s.mayAccess (s.task.fdTable i).path.chars right ∨
        s.usable fd right = some i ∧ s.mayAccess (s.task.fdTable i).path.chars right) := by
  unfold usable
  cases hfd : s.validFd fd with
  | none => exact .inl ⟨rfl, rfl⟩
  | some i =>
    refine .inr ⟨i, rfl, ?_⟩
    by_cases hacc : s.mayAccess (s.task.fdTable i).path.chars right
    · exact .inr ⟨by simpa [filter_eq_some_iff] using hacc, hacc⟩
    · exact .inl ⟨by simpa [filter_eq_none_iff] using hacc, hacc⟩

theorem reported_sysRead (fd : ℤ) (buf : Option Bytes) (count : ℕ) :
    Reported (s.sysRead v fd buf count).1
      (FileCall.Refused v s (.read fd buf count) ∨ FileCall.VfsFailed v s (.read fd buf count))
      (FileCall.VfsFailed v s (.read fd buf count)) True := by
  unfold sysRead FileCall.Refused FileCall.VfsFailed
  cases buf with
  | none => apply Reported.of_checked <;> simp [vfsEINVAL]
  | some data =>
    rcases s.usable_cases fd ipcCapRightVfsRead with
      ⟨hfd, hu⟩ | ⟨i, hfd, hu⟩
    · apply Reported.of_checked <;> simp [hfd, hu, vfsEINVAL]
    · have hzero : fd = 0 ↔ i = 0 := by
        have := s.validFd_eq_some hfd
        omega
      by_cases hi : i = 0
      · apply Reported.of_checked <;> simp [hfd, hzero, hi]
      · have hfd0 := hzero.not.mpr hi
        rcases hu with ⟨hu, hacc⟩ | ⟨hu, hacc⟩
        · apply Reported.of_checked <;> simp [hfd, hu, hi, hfd0, hacc, vfsEACCES]
        · apply Reported.of_checked <;>
            simp [hfd, hu, hi, hfd0, hacc, readOf, fdPath, fdOffset]

theorem reported_sysWrite (fd : ℤ) (buf : Option Bytes) : Reported (s.sysWrite v fd buf).1
      (FileCall.Refused v s (.write fd buf) ∨ FileCall.VfsFailed v s (.write fd buf))
      (FileCall.VfsFailed v s (.write fd buf)) True := by
  unfold sysWrite FileCall.Refused FileCall.VfsFailed
  cases buf with
  | none => apply Reported.of_checked <;> simp [vfsEINVAL]
  | some data =>
    by_cases hcon : fd = 1 ∨ fd = 2
    · apply Reported.of_checked <;> simp only [if_pos hcon] <;> simp
      all_goals omega
    · obtain ⟨h1, h2⟩ := not_or.mp hcon
      rcases s.usable_cases fd ipcCapRightVfsWrite with
        ⟨hfd, hu⟩ | ⟨i, hfd, ⟨hu, hacc⟩ | ⟨hu, hacc⟩⟩
      · apply Reported.of_checked <;> simp [h1, h2, hfd, hu, vfsEINVAL]
      · apply Reported.of_checked <;> simp [h1, h2, hfd, hu, hacc, vfsEACCES]
      · apply Reported.of_checked <;> simp [h1, h2, hfd, hu, hacc, writeOf, fdPath, fdOffset]

theorem reported_sysGetdents64 (fd : ℤ) (dirp : Bool) (count : ℕ) (entries : List VfsDirEntry) :
    Reported (s.sysGetdents64 v fd dirp count entries).1
      (FileCall.Refused v s (.getdents64 fd dirp count entries) ∨
        FileCall.VfsFailed v s (.getdents64 fd dirp count entries))
      (FileCall.VfsFailed v s (.getdents64 fd dirp count entries)) True := by
  unfold sysGetdents64 FileCall.Refused FileCall.VfsFailed
  cases dirp with
  | false => apply Reported.of_checked <;> simp [vfsEINVAL]
  | true =>
    rcases s.usable_cases fd ipcCapRightVfsRead with
      ⟨hfd, hu⟩ | ⟨i, hfd, ⟨hu, hacc⟩ | ⟨hu, hacc⟩⟩
    · apply Reported.of_checked <;> simp [hfd, hu, vfsEINVAL]
    · apply Reported.of_checked <;> simp [hfd, hu, hacc, vfsEACCES]
    · apply Reported.of_checked
      · simp [hu]
      · intro _
        simp only [hfd, hu, hacc, readdirOf, fdPath, Bool.true_eq_false, if_false, not_true,
          mem_some, exists_eq_left', true_and]
        split_ifs with hneg
        · simp [hneg]
        · simp [hneg]
      · simp [hu]

theorem installFd_result (p : Bytes) (flags : UInt32) (st : VfsStat) :
    0 ≤ (s.installFd p flags st).1 := by
  unfold installFd
  split
  · simp [vfsENOSPC]
  · simp

theorem sysOpen_of_not_admitted {flags : UInt32} (st : VfsStat)
    (h : s.admitted path (openRight flags) = none) : 0 ≤ (s.sysOpen v path flags st).1 := by
  unfold sysOpen
  rcases path with _ | ⟨p, hz⟩
  · simp [vfsEINVAL]
  · dsimp only
    by_cases hlen : vfsMaxPath ≤ p.length
    · simp [if_pos hlen, vfsEINVAL]
    · rw [if_neg hlen, if_pos (s.not_admitted h hlen)]
      simp [vfsEACCES]

theorem sysOpen_of_admitted {flags : UInt32} (st : VfsStat)
    (h : s.admitted path (openRight flags) = some p) :
    (s.sysOpen v path flags st).1 < 0 ↔
      (s.statOf v p st).1 < 0 ∧ flags &&& oCreat ≠ 0 ∧ s.createOf v p st < 0 := by
  obtain ⟨⟨p, hz⟩, rfl, rfl, hlen, hacc⟩ := s.admitted_eq_some h
  unfold sysOpen createOf statOf
  dsimp only at hlen hacc ⊢
  rw [if_neg (Nat.not_le.mpr hlen), if_neg (not_not.mpr hacc)]
  by_cases hstat : (v.vfsStat p st s.vfs).1 < 0
  · by_cases hcreat : flags &&& oCreat ≠ 0
    · by_cases hmake : (v.vfsCreate p (v.vfsStat p st s.vfs).2.2).1 < 0
      · simp [hstat, hcreat, hmake]
      · simpa [hstat, hcreat, hmake] using installFd_result _ p flags _
    · simp [hstat, hcreat, vfsENOENT]
  · rw [if_neg hstat]
    simp only [hstat, false_and, iff_false, not_lt]
    split_ifs
    · simp [vfsEEXIST]
    · exact installFd_result _ p flags _
    · exact installFd_result _ p flags _

theorem reported_sysOpen (path : Option CStr) (flags : UInt32) (st : VfsStat) :
    Reported (s.sysOpen v path flags st).1
      (FileCall.Refused v s (.open path flags st) ∨ FileCall.VfsFailed v s (.open path flags st))
      (FileCall.HandedOn v s (.open path flags st)) True := by
  have hneg : (s.sysOpen v path flags st).1 < 0 ↔ FileCall.HandedOn v s (.open path flags st) := by
    unfold FileCall.HandedOn
    cases hp : s.admitted path (openRight flags) with
    | none => simpa [hp] using s.sysOpen_of_not_admitted v st hp
    | some p => simpa [hp] using s.sysOpen_of_admitted v st hp
  constructor
  · intro hon
    refine ⟨.inr ?_, hneg.mpr hon⟩
    obtain ⟨p, hp, hstat, hcreat, hmake⟩ := hon
    exact ⟨p, hp, hmake, .inl ⟨hstat, hcreat⟩⟩
  · intro _ hoff
    exact not_lt.mp (hneg.not.mpr hoff)
  · intro hok
    refine iff_of_true (not_lt.mp fun hlt => hok (.inr ?_)) trivial
    obtain ⟨p, hp, hstat, hcreat, hmake⟩ := hneg.mp hlt
    exact ⟨p, hp, hmake, .inl ⟨hstat, hcreat⟩⟩

theorem reported_sysLseek (fd offset whence : ℤ) (st : VfsStat) :
    Reported (s.sysLseek v fd offset whence st).1
      (PosixCall.Failed v s (.lseek fd offset whence st)) False
      (PosixCall.Representable v s (.lseek fd offset whence st)) := by
  unfold sysLseek PosixCall.Failed PosixCall.Refused PosixCall.VfsFailed PosixCall.Representable
  cases hfd : s.validFd fd with
  | none => constructor <;> simp [hfd, vfsEINVAL]
  | some i =>
    by_cases h0 : whence = 0
    · constructor <;> simp [hfd, h0, seekTo]
    · by_cases h1 : whence = 1
      · constructor <;> simp [hfd, h1, seekTo]
      · by_cases h2 : whence = 2
        · subst h2
          by_cases hst : (v.vfsStat (s.task.fdTable i).path.chars st s.vfs).1 = 0
          · constructor <;> simp [hfd, hst, seekTo, statOf, fdPath]
          · constructor <;> simp [hfd, hst, vfsEio, statOf, fdPath]
        · constructor <;> simp [hfd, h0, h1, h2, vfsEINVAL]

theorem elfExec_result (machine : ℕ) (data : Bytes) (argc envc : ℕ) (a : Arena) :
    (Elf.elfExec machine data argc envc a).1 = none ∨
      (Elf.elfExec machine data argc envc a).1 = some (-1) := by
  unfold elfExec
  split_ifs
  · exact .inr rfl
  · dsimp only
    split_ifs
    · exact .inl rfl
    · exact .inr rfl

variable {argc envc : ℕ} {st : VfsStat} {machine : ℕ}

theorem sysExecve_of_missing {path : CStr} (hstat : (s.statOf v path.chars st).1 < 0) :
    s.sysExecve v machine path argc envc st =
      (some (-vfsENOENT), { s with vfs := (s.statOf v path.chars st).2.2 }) := if_pos hstat

theorem sysExecve_of_no_buffer {path : CStr}
    (hstat : ¬ (s.statOf v path.chars st).1 < 0) (hbuf : s.imageBuffer v path.chars st = none) :
    s.sysExecve v machine path argc envc st =
      (some (-vfsENOSPC), { s with vfs := (s.statOf v path.chars st).2.2 }) := by
  unfold sysExecve
  unfold imageBuffer at hbuf
  unfold statOf at hstat hbuf
  rw [if_neg hstat, hbuf]
  rfl

theorem sysExecve_of_buffer {path : CStr}
    {ptr : ℕ} {a : Arena} (hstat : ¬ (s.statOf v path.chars st).1 < 0)
    (hbuf : s.imageBuffer v path.chars st = some (ptr, a)) :
    s.sysExecve v machine path argc envc st =
      let rd := s.imageOf v path.chars st
      if s.imageRead v path.chars st then
        let k := saveParentImage { s.kernel with arena := a } s.kernel.current
        let x := elfExec machine rd.2.1 argc envc k.arena
        (x.1, { s with
          vfs := rd.2.2
          kernel := { k.modifyTask s.kernel.current (recordSpan rd.2.1) with
            arena := if x.1.isSome then x.2.sageFree ptr else x.2 } })
      else
        (some (-vfsEio),
          { s with vfs := rd.2.2, kernel := { s.kernel with arena := a.sageFree ptr } }) := by
  unfold imageBuffer at hbuf
  unfold statOf at hstat hbuf
  unfold sysExecve
  rw [if_neg hstat, hbuf]
  dsimp only
  by_cases hread : s.imageRead v path.chars st
  all_goals
    have hread' := hread
    unfold imageRead imageOf statOf at hread'
    dsimp only at hread'
  · rw [if_pos hread, if_neg (not_not.mpr hread')]
    rfl
  · rw [if_neg hread, if_pos hread']
    rfl

theorem honest_sysExecve (machine : ℕ) (path : CStr) (argc envc : ℕ) (st : VfsStat) :
    PosixCall.Honest v s (.file (.execve machine path argc envc st)) ↔
      PosixCall.HandedOn v s (.file (.execve machine path argc envc st)) ∨
      ¬ PosixCall.Failed v s (.file (.execve machine path argc envc st)) := by
  unfold PosixCall.Honest PosixCall.HandedOn PosixCall.Failed
  simp only [PosixCall.result, FileCall.result, PosixCall.Refused, FileCall.Refused,
    PosixCall.VfsFailed, FileCall.VfsFailed, FileCall.HandedOn]
  by_cases hstat : (s.statOf v path.chars st).1 < 0
  · simp [s.sysExecve_of_missing v hstat, hstat, vfsENOENT]
  · cases hbuf : s.imageBuffer v path.chars st with
    | none =>
      have hload : ¬ s.loaderRefuses v machine path.chars argc envc st := by
        rintro ⟨-, b, hb, -⟩
        simp [hbuf] at hb
      simp [s.sysExecve_of_no_buffer v hstat hbuf, not_lt.mp hstat, hload, vfsENOSPC]
    | some b =>
      obtain ⟨ptr, a⟩ := b
      rw [s.sysExecve_of_buffer v hstat hbuf]
      by_cases hread : s.imageRead v path.chars st
      · have hload : s.loaderRefuses v machine path.chars argc envc st ↔
            (elfExec machine (s.imageOf v path.chars st).2.1 argc envc
              (saveParentImage { s.kernel with arena := a } s.kernel.current).arena).1 ≠
              none := by
          unfold loaderRefuses
          simp [hread, hbuf]
        rcases elfExec_result machine (s.imageOf v path.chars st).2.1 argc envc
          (saveParentImage { s.kernel with arena := a } s.kernel.current).arena with
          hx | hx
        · simp [hx, hload, hread, hstat]
        · simp [hx, hload, hread, hstat, not_lt.mp hstat]
      · have hload : ¬ s.loaderRefuses v machine path.chars argc envc st := fun h => hread h.1
        simp [hread, hload, vfsEio]

theorem honest_waitpid (pid : ℤ) : PosixCall.Honest v s (.waitpid pid) ↔
      ¬ PosixCall.Failed v s (.waitpid pid) ∧ PosixCall.Representable v s (.waitpid pid) := by
  unfold PosixCall.Honest PosixCall.Failed PosixCall.Representable
  simp only [PosixCall.result, PosixCall.Refused, PosixCall.VfsFailed, waitpidResult,
    Kernel.sysWaitpid, or_false]
  cases hc : s.kernel.schedGetThreadById (pid % 2 ^ 32).toNat with
  | none => simp [toInt32]
  | some c =>
    by_cases ht : (s.kernel.tasks c).state = .terminated
    · simp [ht, toInt32]
      omega
    · simp [ht]

end Sys

theorem posix_call_honest_iff (v : Vfs σ) (s : Sys σ) (c : PosixCall) :
    c.Honest v s ↔ c.HandedOn v s ∨ ¬ c.Failed v s ∧ c.Representable v s := by
  cases c with
  | file c =>
    cases c with
    | «open» path flags st => exact (s.reported_sysOpen v path flags st).result_iff
    | read fd buf count => exact (s.reported_sysRead v fd buf count).result_iff
    | write fd buf => exact (s.reported_sysWrite v fd buf).result_iff
    | unlink path => exact (s.reported_sysModify v.vfsUnlink path).result_iff
    | mkdir path => exact (s.reported_sysModify v.vfsMkdir path).result_iff
    | chdir path st => exact (s.reported_sysChdir v path st _).result_iff
    | getdents64 fd dirp count entries =>
      exact (s.reported_sysGetdents64 v fd dirp count entries).result_iff
    | execve machine path argc envc st =>
      simpa [PosixCall.Representable] using s.honest_sysExecve v machine path argc envc st
  | close fd => exact (s.reported_sysClose fd _).result_iff
  | lseek fd offset whence st => exact (s.reported_sysLseek v fd offset whence st).result_iff
  | fstat fd buf st => exact (s.reported_sysFstat v fd buf st _).result_iff
  | dup2 oldfd newfd => exact (s.reported_sysDup2 oldfd newfd _).result_iff
  | waitpid pid => simpa [PosixCall.HandedOn] using s.honest_waitpid v pid

/-- With nothing mounted, opening a file gives the number of the standard error stream. -/
theorem open_missing_returns_descriptor :
    let v : Vfs Unit := ⟨[], none⟩
    let s : Sys Unit := { kernel := {}, vfs := ⟨(), []⟩ }
    let call : PosixCall := .file (.open (some ⟨bytes "/a", by decide⟩) 0 {})
    call.result v s = some 2 ∧ call.Refused v s ∧ ¬ call.Honest v s := by
  intro v s call
  have hres : call.result v s = some 2 := by decide
  have href : call.Refused v s :=
    Or.inr ⟨bytes "/a", by decide, .inl (by decide)⟩
  refine ⟨hres, href, ?_⟩
  intro hiff
  exact absurd (hiff.mpr (.inl href)) (by decide)

end SageOS
