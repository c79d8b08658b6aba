import SageOS.SyscallResults

/-!
# Listing a directory with `sys_getdents64`

A program lists a directory by calling until the result is 0. The records of one call lie one
behind the other in the buffer. The call keeps no position in the descriptor, so each one packs
the directory from its first entry again.
-/
namespace SageOS
open List
variable {σ : Type}
namespace Sys

def dirRecordSize (e : VfsDirEntry) : ℕ := (20 + e.name.chars.length + 7) / 8 * 8

/-- Records one behind the other from `start` on, inside of a buffer of `count` bytes. -/
def Placed (count : ℕ) : ℕ → List LinuxDirent → Prop
  | start, [] => start ≤ count
  | start, d :: ds =>
    d.off = start + d.reclen ∧ 20 + d.name.length ≤ d.reclen ∧ Placed count d.off ds

theorem packDirents_cons {count i total : ℕ} {e : VfsDirEntry} {es : List VfsDirEntry}
    (h : total + dirRecordSize e ≤ count) :
    packDirents count i total (e :: es) =
      ((packDirents count (i + 1) (total + dirRecordSize e) es).1,
        ⟨i + 1, total + dirRecordSize e, dirRecordSize e, if e.type = .directory then 4 else 8,
          e.name.chars⟩ :: (packDirents count (i + 1) (total + dirRecordSize e) es).2) := by
  exact if_neg (Nat.not_lt.mpr h)

theorem packDirents_cons_of_lt {count i total : ℕ} {e : VfsDirEntry} {es : List VfsDirEntry}
    (h : count < total + dirRecordSize e) : packDirents count i total (e :: es) = (total, []) := by
  exact if_pos h

theorem placed_packDirents {count : ℕ} (es : List VfsDirEntry) {i total : ℕ}
    (h : total ≤ count) : Placed count total (packDirents count i total es).2 := by
  induction es generalizing i total with
  | nil => exact h
  | cons e es ih =>
    by_cases hfit : total + dirRecordSize e ≤ count
    · rw [packDirents_cons hfit]
      refine ⟨rfl, ?_, ih hfit⟩
      unfold dirRecordSize
      dsimp only
      omega
    · rw [packDirents_cons_of_lt (by omega)]
      exact h

theorem le_packDirents (count : ℕ) (es : List VfsDirEntry) (i total : ℕ) :
    total ≤ (packDirents count i total es).1 := by
  induction es generalizing i total with
  | nil => exact le_rfl
  | cons e es ih =>
    by_cases hfit : total + dirRecordSize e ≤ count
    · rw [packDirents_cons hfit]
      exact (Nat.le_add_right _ _).trans (ih _ _)
    · rw [packDirents_cons_of_lt (by omega)]

/-- A directory that does not change: what `vfs_readdir` answers on the state `fs`. -/
def Lists (v : Vfs σ) (fs : σ) (path : Bytes) (entries : List VfsDirEntry) : Prop :=
  ∀ buf log, let r := v.vfsReaddir path vfsDirentMax buf ⟨fs, log⟩
    r.1 = (entries.take vfsDirentMax).length ∧ r.2.1.take r.1.toNat = entries.take vfsDirentMax ∧
      r.2.2.fs = fs

variable (v : Vfs σ) (s : Sys σ) (fd : ℤ) (count : ℕ) (bufs : ℕ → List VfsDirEntry)

def listing : ℕ → Sys σ
  | 0 => s
  | n + 1 => ((listing n).sysGetdents64 v fd true count (bufs n)).2.2

def answer (n : ℕ) : ℤ × List LinuxDirent :=
  let r := (s.listing v fd count bufs n).sysGetdents64 v fd true count (bufs n)
  (r.1, r.2.1)

/-- The calls come to an end and have listed every entry once. -/
def Enumerates (entries : List VfsDirEntry) : Prop :=
  ∃ n, (s.answer v fd count bufs n).1 = 0 ∧ (∀ i < n, 0 < (s.answer v fd count bufs i).1) ∧
    (∀ i ≤ n, Placed count 0 (s.answer v fd count bufs i).2) ∧
    ((range n).flatMap fun i => (s.answer v fd count bufs i).2.map fun d =>
        (d.type, d.name)).Perm
      (entries.map fun e => (if e.type = .directory then 4 else 8, e.name.chars))

variable {v s fd} {i : ℕ} {entries : List VfsDirEntry}

theorem sysGetdents64_of_lists (buf : List VfsDirEntry)
    (hfd : s.usable fd ipcCapRightVfsRead = some i)
    (hlists : Lists v s.vfs.fs (s.fdPath i) entries) :
    let r := s.sysGetdents64 v fd true count buf
    r.1 = (packDirents count 0 0 (entries.take vfsDirentMax)).1 ∧
      r.2.1 = (packDirents count 0 0 (entries.take vfsDirentMax)).2 ∧
      r.2.2.kernel = s.kernel ∧ r.2.2.vfs.fs = s.vfs.fs := by
  obtain ⟨hvalid, hacc⟩ := Option.filter_eq_some_iff.mp hfd
  obtain ⟨hret, htake, hfs⟩ := hlists buf s.vfs.log
  unfold fdPath at hret htake hfs
  have hacc' : s.mayAccess (s.task.fdTable i).path.chars ipcCapRightVfsRead := by simpa using hacc
  intro r
  have hr : r = (((packDirents count 0 0 (entries.take vfsDirentMax)).1 : ℤ),
      (packDirents count 0 0 (entries.take vfsDirentMax)).2,
      { s with
        vfs := (v.vfsReaddir (s.task.fdTable i).path.chars vfsDirentMax buf s.vfs).2.2 }) := by
    unfold r sysGetdents64
    rw [if_neg (by decide), hvalid]
    dsimp only
    rw [if_neg (not_not.mpr hacc'), if_neg (by rw [hret]; omega), htake]
  rw [hr]
  exact ⟨rfl, rfl, rfl, hfs⟩

theorem usable_congr {s' : Sys σ} (h : s'.kernel = s.kernel) (right : UInt32) :
    s'.usable fd right = s.usable fd right := by
  obtain ⟨k, w, c⟩ := s
  subst h
  rfl

/-- No call changes what the next one reads. -/
theorem listing_same (hfd : s.usable fd ipcCapRightVfsRead = some i)
    (hlists : Lists v s.vfs.fs (s.fdPath i) entries) (n : ℕ) :
    (s.listing v fd count bufs n).usable fd ipcCapRightVfsRead = some i ∧
      Lists v (s.listing v fd count bufs n).vfs.fs ((s.listing v fd count bufs n).fdPath i)
        entries := by
  induction n with
  | zero => exact ⟨hfd, hlists⟩
  | succ n ih =>
    obtain ⟨-, -, hk, hfs⟩ := sysGetdents64_of_lists count (bufs n) ih.1 ih.2
    refine ⟨(usable_congr hk ipcCapRightVfsRead).trans ih.1, ?_⟩
    have hpath : (s.listing v fd count bufs (n + 1)).fdPath i =
        (s.listing v fd count bufs n).fdPath i := by
      unfold fdPath task
      rw [← hk]
      rfl
    rw [hpath]
    exact hfs ▸ ih.2

theorem answer_same (hfd : s.usable fd ipcCapRightVfsRead = some i)
    (hlists : Lists v s.vfs.fs (s.fdPath i) entries) (n : ℕ) :
    s.answer v fd count bufs n = (((packDirents count 0 0 (entries.take vfsDirentMax)).1 : ℤ),
        (packDirents count 0 0 (entries.take vfsDirentMax)).2) := by
  obtain ⟨hfd', hlists'⟩ := listing_same count bufs hfd hlists n
  obtain ⟨hret, hrecs, -⟩ := sysGetdents64_of_lists count (bufs n) hfd' hlists'
  exact Prod.ext hret hrecs

end Sys

open Sys

/-- On a directory that does not change, with a buffer that takes each record, the calls list the
directory and come to an end exactly when it is empty. -/
theorem enumerates_iff {v : Vfs σ} {s : Sys σ} {fd : ℤ} {count i : ℕ}
    {bufs : ℕ → List VfsDirEntry} {entries : List VfsDirEntry}
    (hfd : s.usable fd ipcCapRightVfsRead = some i)
    (hlists : Lists v s.vfs.fs (s.fdPath i) entries)
    (hcount : ∀ e ∈ entries, dirRecordSize e ≤ count) :
    s.Enumerates v fd count bufs entries ↔ entries = [] := by
  have hsame := answer_same count bufs hfd hlists
  constructor
  · rintro ⟨n, hzero, -⟩
    by_contra hne
    obtain ⟨e, es, rfl⟩ := exists_cons_of_ne_nil hne
    have hfit : 0 + dirRecordSize e ≤ count := by
      rw [Nat.zero_add]
      exact hcount e mem_cons_self
    have hpos : 0 < dirRecordSize e := by
      unfold dirRecordSize
      omega
    have htake : (e :: es).take vfsDirentMax = e :: es.take 63 := rfl
    rw [hsame n, htake, packDirents_cons hfit] at hzero
    have hle := le_packDirents count (es.take 63) (0 + 1) (0 + dirRecordSize e)
    omega
  · rintro rfl
    refine ⟨0, ?_, nofun, fun j _ => ?_, List.Perm.nil⟩
    · rw [hsame 0]
      rfl
    · rw [hsame j]
      exact placed_packDirents _ (Nat.zero_le _)

def dirVfs (entries : List VfsDirEntry) : Vfs Unit where
  mounts := [⟨bytes "/", {
    readdir := some fun n _ _ _ => ((entries.take n).length, entries.take n, ()) }, true⟩]
  bridge := none

def dirSys : Sys Unit where
  kernel := { tasks := fun _ =>
    { state := .running, fdTable := fun _ => { valid := true, path := strncpy 256 (bytes "/") } } }
  vfs := ⟨(), []⟩

theorem usable_dirSys : dirSys.usable 3 ipcCapRightVfsRead = some 3 := by decide

theorem lists_dirVfs (entries : List VfsDirEntry) :
    Lists (dirVfs entries) dirSys.vfs.fs (dirSys.fdPath 3) entries := by
  have hpath : dirSys.fdPath 3 = [slash] := by decide
  rw [hpath]
  intro buf log
  exact ⟨rfl, take_length, rfl⟩

theorem empty_directory_listed : dirSys.Enumerates (dirVfs []) 3 4096 (fun _ => []) [] :=
  (enumerates_iff usable_dirSys (lists_dirVfs []) nofun).mpr rfl

def fileA : VfsDirEntry := ⟨strncpy 64 (bytes "a"), .file, 0⟩

/-- A directory with one file: every call answers with its record, and the listing never ends. -/
theorem single_file_never_listed : (∀ n, dirSys.answer (dirVfs [fileA]) 3 4096 (fun _ => []) n =
      (24, [⟨1, 24, 24, 8, bytes "a"⟩])) ∧
      ¬ dirSys.Enumerates (dirVfs [fileA]) 3 4096 (fun _ => []) [fileA] := by
  have hall (n : ℕ) : dirSys.answer (dirVfs [fileA]) 3 4096 (fun _ => []) n =
      (24, [⟨1, 24, 24, 8, bytes "a"⟩]) := by
    rw [answer_same _ _ usable_dirSys (lists_dirVfs _)]
    rfl
  refine ⟨hall, ?_⟩
  rintro ⟨n, hzero, -⟩
  rw [hall n] at hzero
  exact absurd hzero (by decide)

end SageOS
