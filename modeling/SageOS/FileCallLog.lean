import SageOS.FileSyscalls

/-!
# What a file system call sends to the backends

For each call: a request in the log afterwards was there before, or it was sent after the
capability check on the path of the call had succeeded, and is routed on the normal form of that
path.
-/
namespace SageOS
variable {σ : Type}
namespace Sys
variable {v : Vfs σ} {s : Sys σ} {e : BackendCall}

/-- A request in the log is older than the call, or was sent after the check on path `p`
succeeded. -/
def Justified (s : Sys σ) (p : Bytes) (right : UInt32) (e : BackendCall) : Prop :=
  e ∈ s.vfs.log ∨
    p.length < vfsMaxPath ∧ s.mayAccess p right ∧ e.routed = vfsNormalizePath p

@[simp] theorem advance_vfs (fd : ℕ) (ret : ℤ) : (s.advance fd ret).vfs = s.vfs := by
  unfold advance
  split_ifs <;> rfl

@[simp] theorem installFd_vfs (path : Bytes) (flags : UInt32) (st : VfsStat) :
    (s.installFd path flags st).2.vfs = s.vfs := by
  unfold installFd
  split <;> rfl

theorem justified_of_sent {p : Bytes} {right : UInt32} {op : VfsOp}
    (he : e ∈ s.vfs.log ∨ e = ⟨op, vfsNormalizePath p⟩) (hlen : p.length < vfsMaxPath)
    (hacc : s.mayAccess p right) : s.Justified p right e :=
  he.imp_right fun hnew => ⟨hlen, hacc, by rw [hnew]⟩

variable {fd : ℤ}

theorem sysWrite_log {buf : Option Bytes} (he : e ∈ (s.sysWrite v fd buf).2.vfs.log) :
    e ∈ s.vfs.log ∨ ∃ i, s.validFd fd = some i ∧
      s.Justified (s.task.fdTable i).path.chars ipcCapRightVfsWrite e := by
  unfold sysWrite at he
  cases buf with
  | none => exact .inl he
  | some data =>
    split_ifs at he
    · exact .inl he
    cases hfd : s.validFd fd with
    | none =>
      rw [hfd] at he
      exact .inl he
    | some i =>
      simp only [hfd] at he
      split_ifs at he with hacc
      · rw [advance_vfs] at he
        exact .inr ⟨i, rfl, justified_of_sent (v.mem_route_log he) (CString.length_lt _) hacc⟩
      · exact .inl he

theorem sysRead_log {buf : Option Bytes} {count : ℕ}
    (he : e ∈ (s.sysRead v fd buf count).2.2.vfs.log) :
    e ∈ s.vfs.log ∨ ∃ i, s.validFd fd = some i ∧
      s.Justified (s.task.fdTable i).path.chars ipcCapRightVfsRead e := by
  unfold sysRead at he
  cases buf with
  | none => exact .inl he
  | some data =>
    cases hfd : s.validFd fd with
    | none =>
      simp only [hfd] at he
      exact .inl he
    | some i =>
      simp only [hfd] at he
      split_ifs at he with hz hacc
      · exact .inl he
      · rw [advance_vfs] at he
        exact .inr ⟨i, rfl, justified_of_sent (v.mem_route_log he) (CString.length_lt _) hacc⟩
      · exact .inl he

theorem sysGetdents64_log {dirp : Bool} {count : ℕ} {entries : List VfsDirEntry}
    (he : e ∈ (s.sysGetdents64 v fd dirp count entries).2.2.vfs.log) :
    e ∈ s.vfs.log ∨ ∃ i, s.validFd fd = some i ∧
      s.Justified (s.task.fdTable i).path.chars ipcCapRightVfsRead e := by
  unfold sysGetdents64 at he
  split_ifs at he
  · exact .inl he
  cases hfd : s.validFd fd with
  | none =>
    rw [hfd] at he
    exact .inl he
  | some i =>
    simp only [hfd] at he
    split_ifs at he with hacc hneg
    · exact .inr ⟨i, rfl, justified_of_sent (v.mem_vfsReaddir_log he) (CString.length_lt _) hacc⟩
    · exact .inr ⟨i, rfl, justified_of_sent (v.mem_vfsReaddir_log he) (CString.length_lt _) hacc⟩
    · exact .inl he

variable {path : Option CStr}

theorem sysModify_log {op : Bytes → VfsState σ → ℤ × Unit × VfsState σ} {kind : VfsOp}
    (hop : ∀ p t, ∀ e ∈ (op p t).2.2.log, e ∈ t.log ∨ e = ⟨kind, vfsNormalizePath p⟩)
    (he : e ∈ (s.sysModify op path).2.vfs.log) :
    e ∈ s.vfs.log ∨ ∃ p, path = some p ∧ s.Justified p.chars ipcCapRightVfsWrite e := by
  unfold sysModify at he
  cases path with
  | none => exact .inl he
  | some p =>
    dsimp only at he
    split_ifs at he with hlen hacc
    · exact .inl he
    · exact .inr ⟨p, rfl, justified_of_sent (hop _ _ e he) (by omega) hacc⟩
    · exact .inl he

theorem sysChdir_log {st : VfsStat} (he : e ∈ (s.sysChdir v path st).2.vfs.log) :
    e ∈ s.vfs.log ∨ ∃ p, path = some p ∧ s.Justified p.chars ipcCapRightVfsRead e := by
  unfold sysChdir at he
  cases path with
  | none => exact .inl he
  | some p =>
    dsimp only at he
    have hsent (hlen : ¬ vfsMaxPath ≤ p.chars.length)
        (hacc : s.mayAccess p.chars ipcCapRightVfsRead)
        (hlog : e ∈ (v.vfsStat p.chars st s.vfs).2.2.log) :
        s.Justified p.chars ipcCapRightVfsRead e :=
      justified_of_sent (v.mem_route_log hlog) (by omega) hacc
    split_ifs at he with hlen hacc hneg hdir
    · exact .inl he
    · exact .inr ⟨p, rfl, hsent hlen hacc he⟩
    · exact .inr ⟨p, rfl, hsent hlen hacc he⟩
    · exact .inr ⟨p, rfl, hsent hlen hacc he⟩
    · exact .inl he

theorem sysOpen_log {flags : UInt32} {st : VfsStat}
    (he : e ∈ (s.sysOpen v path flags st).2.vfs.log) :
    e ∈ s.vfs.log ∨ ∃ p, path = some p ∧ s.Justified p.chars (openRight flags) e := by
  unfold sysOpen at he
  cases path with
  | none => exact .inl he
  | some p =>
    dsimp only at he
    by_cases hlen : vfsMaxPath ≤ p.chars.length
    · rw [if_pos hlen] at he
      exact .inl he
    · rw [if_neg hlen] at he
      by_cases hacc : s.mayAccess p.chars (openRight flags)
      · refine .inr ⟨p, rfl, ?_⟩
        have hstat (he' : e ∈ (v.vfsStat p.chars st s.vfs).2.2.log) :
            s.Justified p.chars (openRight flags) e :=
          justified_of_sent (v.mem_route_log he') (by omega) hacc
        have hcreate (he' : e ∈ (v.vfsCreate p.chars (v.vfsStat p.chars st s.vfs).2.2).2.2.log) :
            s.Justified p.chars (openRight flags) e := by
          rcases v.mem_route_log he' with hold | hnew
          · exact hstat hold
          · exact justified_of_sent (.inr hnew) (by omega) hacc
        split_ifs at he
        · exact hcreate he
        · exact hcreate (by simpa only [installFd_vfs] using he)
        · exact hstat he
        · exact hstat he
        · exact hcreate (by simpa only [installFd_vfs] using he)
        · exact hstat (by simpa only [installFd_vfs] using he)
      · rw [if_pos hacc] at he
        exact .inl he

end Sys
end SageOS
