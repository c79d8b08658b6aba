import SageOS.CleanupFrame

/-!
# What the cleanup destroys

The objects behind the capabilities that the cleanup hits: an endpoint dies and its ring goes back
to the arena, a port dies. Everything else in the pools and in the arena is as before. The free
part of the arena is taken as a set of addresses, so merging of blocks does not show.
-/
namespace SageOS
open List
namespace Arena
variable {a : Arena} {x : ℕ}

def Covers (blocks : List FreeBlock) (x : ℕ) : Prop :=
  ∃ b ∈ blocks, b.addr ≤ x ∧ x < b.addr + b.size

theorem covers_nil : ¬ Covers [] x := fun ⟨_, hb, _⟩ => nomatch hb

theorem covers_cons {b : FreeBlock} {blocks : List FreeBlock} :
    Covers (b :: blocks) x ↔ (b.addr ≤ x ∧ x < b.addr + b.size) ∨ Covers blocks x := by
  unfold Covers
  rw [exists_mem_cons_iff]

theorem covers_coalesce (b : FreeBlock) (blocks : List FreeBlock) :
    Covers (coalesce b blocks) x ↔ Covers (b :: blocks) x := by
  cases blocks with
  | nil => rfl
  | cons c rest =>
    unfold coalesce
    dsimp only
    by_cases hadj : b.addr + b.size = c.addr
    · rw [if_pos hadj, covers_cons, covers_cons, covers_cons, ← or_assoc]
      apply or_congr_left
      dsimp only
      omega
    · rw [if_neg hadj]

theorem covers_insertFree (b : FreeBlock) (blocks : List FreeBlock) :
    Covers (insertFree b blocks) x ↔ Covers (b :: blocks) x := by
  induction blocks with
  | nil => rfl
  | cons c rest ih =>
    have hswap : Covers (c :: b :: rest) x ↔ Covers (b :: c :: rest) x := by
      rw [covers_cons, covers_cons, covers_cons, covers_cons]
      exact or_left_comm
    unfold insertFree
    by_cases hlt : c.addr < b.addr
    · rw [if_pos hlt]
      cases rest with
      | nil =>
        rw [covers_coalesce, hswap]
      | cons d tail =>
        dsimp only
        by_cases hd : d.addr < b.addr
        · rw [if_pos hd, covers_cons, ih, ← covers_cons, hswap]
        · rw [if_neg hd, covers_coalesce, covers_cons, covers_coalesce, ← covers_cons, hswap]
    · rw [if_neg hlt, covers_coalesce]

def FreeAt (a : Arena) (x : ℕ) : Prop := Covers a.freeList x

def InBlock (a : Arena) (ptr x : ℕ) : Prop :=
  ptr - allocHeaderSize ≤ x ∧ x < ptr - allocHeaderSize +
    align ((a.userSize (ptr - allocHeaderSize) + allocHeaderSize) % 2 ^ 64)

theorem freeAt_sageFree (a : Arena) (ptr : ℕ) :
    (a.sageFree ptr).FreeAt x ↔ a.FreeAt x ∨ a.InBlock ptr x := by
  unfold FreeAt sageFree
  rw [covers_insertFree, covers_cons, or_comm]
  rfl

end Arena

namespace Kernel
variable {k k' : Kernel} {ext : ℕ}

def Destroys (k : Kernel) (ext i j : ℕ) : Prop :=
  k.Hits ext i ∧ isEndpointLike (k.ownTable.caps i) ∧ (k.ownTable.caps i).objectId = j

def DestroysPort (k : Kernel) (ext i j : ℕ) : Prop :=
  k.Hits ext i ∧ (k.ownTable.caps i).objectType = .port ∧ (k.ownTable.caps i).objectId = j

/-- What the destructions in `slots` do to endpoints, ports and the arena. -/
structure Destroyed (ext : ℕ) (slots : ℕ → Prop) (k k' : Kernel) : Prop where
  boundTask : ∀ j, (k'.endpoints j).boundTask = (k.endpoints j).boundTask
  state : ∀ j, (k'.endpoints j).state.isFree ↔
    (k.endpoints j).state.isFree ∨ ∃ i, slots i ∧ k.Destroys ext i j
  msgRing : ∀ j ptr, (k'.endpoints j).msgRing = some ptr ↔
    (k.endpoints j).msgRing = some ptr ∧ ¬ ∃ i, slots i ∧ k.Destroys ext i j
  ownerTask : ∀ j, (k'.ports j).ownerTask = (k.ports j).ownerTask
  portState : ∀ j, (k'.ports j).state.isFree ↔
    (k.ports j).state.isFree ∨ ∃ i, slots i ∧ k.DestroysPort ext i j
  userSize : k'.arena.userSize = k.arena.userSize
  freeAt : ∀ x, k'.arena.FreeAt x ↔ k.arena.FreeAt x ∨ ∃ i j ptr, slots i ∧ k.Destroys ext i j ∧
    (k.endpoints j).msgRing = some ptr ∧ k.arena.InBlock ptr x

theorem Destroyed.refl (k : Kernel) {slots : ℕ → Prop} (h : ∀ i, slots i → ¬ k.Hits ext i) :
    Destroyed ext slots k k := by
  have hep (i j : ℕ) (hi : slots i) : ¬ k.Destroys ext i j := fun hd => h i hi hd.1
  have hport (i j : ℕ) (hi : slots i) : ¬ k.DestroysPort ext i j := fun hd => h i hi hd.1
  refine ⟨fun _ => rfl, fun j => ?_, fun j ptr => ?_, fun _ => rfl, fun j => ?_, rfl, fun x => ?_⟩
  · rw [or_iff_left]
    rintro ⟨i, hi, hd⟩
    exact hep i j hi hd
  · rw [and_iff_left]
    rintro ⟨i, hi, hd⟩
    exact hep i j hi hd
  · rw [or_iff_left]
    rintro ⟨i, hi, hd⟩
    exact hport i j hi hd
  · rw [or_iff_left]
    rintro ⟨i, j, ptr, hi, hd, -⟩
    exact hep i j hi hd

theorem destroys_eq_iff {i j : ℕ} (h : k.Hits ext i) : (∃ i', i' = i ∧ k.Destroys ext i' j) ↔
      isEndpointLike (k.ownTable.caps i) ∧ (k.ownTable.caps i).objectId = j := by
  rw [exists_eq_left]
  exact ⟨fun hd => hd.2, fun hd => ⟨h, hd⟩⟩

theorem destroysPort_eq_iff {i j : ℕ} (h : k.Hits ext i) :
    (∃ i', i' = i ∧ k.DestroysPort ext i' j) ↔
      (k.ownTable.caps i).objectType = .port ∧ (k.ownTable.caps i).objectId = j := by
  rw [exists_eq_left]
  exact ⟨fun hd => hd.2, fun hd => ⟨h, hd⟩⟩

def killEndpoint (k : Kernel) (j : ℕ) : Kernel :=
  { k with arena := (k.endpoints j).msgRing.elim k.arena k.arena.sageFree }.modifyEndpoint j
    fun e => { e with state := .dead, msgRing := none }

theorem destroyObject_of_isEndpointLike {cap : IpcCapability} (h : isEndpointLike cap) :
    k.destroyObject cap = k.killEndpoint cap.objectId := by
  unfold destroyObject
  rcases h with h | h <;> rw [h] <;> rfl

theorem destroyed_killEndpoint {i : ℕ} (h : k.Hits ext i)
    (hep : isEndpointLike (k.ownTable.caps i)) :
    Destroyed ext (· = i) k (k.killEndpoint (k.ownTable.caps i).objectId) := by
  have hport : (k.ownTable.caps i).objectType ≠ .port := by
    rcases hep with heq | heq <;> rw [heq] <;> decide
  generalize hid : (k.ownTable.caps i).objectId = id
  have hkilled (j : ℕ) : (k.killEndpoint id).endpoints j =
      if j = id then { k.endpoints id with state := .dead, msgRing := none }
      else k.endpoints j := Function.update_apply ..
  refine ⟨fun j => ?_, fun j => ?_, fun j ptr => ?_, fun _ => rfl, fun j => ?_, ?_, fun x => ?_⟩
  · rw [hkilled]
    split_ifs with hj
    · rw [hj]
    · rfl
  · rw [hkilled, destroys_eq_iff h, hid]
    split_ifs with hj
    · simp [IpcLifecycleState.isFree, hep, hj]
    · simp [Ne.symm hj]
  · rw [hkilled, destroys_eq_iff h, hid]
    split_ifs with hj
    · simp [hep, hj]
    · simp [Ne.symm hj]
  · rw [destroysPort_eq_iff h, or_iff_left fun hc => hport hc.1]
    rfl
  · change ((k.endpoints id).msgRing.elim k.arena k.arena.sageFree).userSize = _
    cases (k.endpoints id).msgRing <;> rfl
  · have hring : (∃ i' j ptr, i' = i ∧ k.Destroys ext i' j ∧ (k.endpoints j).msgRing = some ptr ∧
        k.arena.InBlock ptr x) ↔
        ∃ ptr, (k.endpoints id).msgRing = some ptr ∧ k.arena.InBlock ptr x := by
      constructor
      · rintro ⟨i', j, ptr, rfl, hd, hrest⟩
        rw [← hd.2.2, hid] at hrest
        exact ⟨ptr, hrest⟩
      · rintro ⟨ptr, hrest⟩
        exact ⟨i, id, ptr, rfl, ⟨h, hep, hid⟩, hrest⟩
    rw [hring]
    change ((k.endpoints id).msgRing.elim k.arena k.arena.sageFree).FreeAt x ↔ _
    cases (k.endpoints id).msgRing with
    | none => simp
    | some ptr => simpa using k.arena.freeAt_sageFree ptr

theorem destroyed_destroyObject {i : ℕ} (h : k.Hits ext i) :
    Destroyed ext (· = i) k (k.destroyObject (k.ownTable.caps i)) := by
  by_cases hep : isEndpointLike (k.ownTable.caps i)
  · rw [destroyObject_of_isEndpointLike hep]
    exact destroyed_killEndpoint h hep
  · have hstay (j : ℕ) : ¬ ∃ i', i' = i ∧ k.Destroys ext i' j := by
      rw [destroys_eq_iff h]
      exact fun hd => hep hd.1
    have harena (k' : Kernel) (he : k'.endpoints = k.endpoints) (ha : k'.arena = k.arena)
        (howner : ∀ j, (k'.ports j).ownerTask = (k.ports j).ownerTask)
        (hports : ∀ j, (k'.ports j).state.isFree ↔ (k.ports j).state.isFree ∨
          ∃ i', i' = i ∧ k.DestroysPort ext i' j) : Destroyed ext (· = i) k k' := by
      refine ⟨fun j => by rw [he], fun j => ?_, fun j ptr => ?_, howner, hports, by rw [ha],
        fun x => ?_⟩
      · rw [he, or_iff_left (hstay j)]
      · rw [he, and_iff_left (hstay j)]
      · rw [ha, or_iff_left]
        rintro ⟨i', j, ptr, hi, hd, -⟩
        exact hstay j ⟨i', hi, hd⟩
    have hother (ht : (k.ownTable.caps i).objectType ≠ .port) (j : ℕ) :
        (k.ports j).state.isFree ↔ (k.ports j).state.isFree ∨
          ∃ i', i' = i ∧ k.DestroysPort ext i' j := by
      rw [destroysPort_eq_iff h, or_iff_left fun hd => ht hd.1]
    unfold destroyObject
    cases ht : (k.ownTable.caps i).objectType with
    | endpoint => exact absurd (.inl ht) hep
    | channel => exact absurd (.inr ht) hep
    | port =>
      have hset (j : ℕ) : (k.setPort (k.ownTable.caps i).objectId
          { k.ports (k.ownTable.caps i).objectId with state := .dead }).ports j =
          if j = (k.ownTable.caps i).objectId
          then { k.ports (k.ownTable.caps i).objectId with state := .dead }
          else k.ports j := Function.update_apply ..
      refine harena _ rfl rfl (fun j => ?_) (fun j => ?_)
      · rw [hset]
        split_ifs with hj
        · rw [hj]
        · rfl
      · rw [hset, destroysPort_eq_iff h]
        split_ifs with hj
        · simp [IpcLifecycleState.isFree, ht, hj]
        · simp [Ne.symm hj]
    | none | sharedMem | signalSet | monitor | file | dir =>
      exact harena _ rfl rfl (fun _ => rfl) (hother (by rw [ht]; decide))

theorem Destroyed.congr {slots : ℕ → Prop} {k₁ k₂ : Kernel} (h : Destroyed ext slots k k₁)
    (he : k₂.endpoints = k₁.endpoints) (hp : k₂.ports = k₁.ports) (ha : k₂.arena = k₁.arena) :
    Destroyed ext slots k k₂ := by
  constructor
  · rw [he]
    exact h.boundTask
  · rw [he]
    exact h.state
  · rw [he]
    exact h.msgRing
  · rw [hp]
    exact h.ownerTask
  · rw [hp]
    exact h.portState
  · rw [ha]
    exact h.userSize
  · rw [ha]
    exact h.freeAt

theorem destroyObject_setExt (k : Kernel) (ext : ℕ) (tab : CapTable) (cap : IpcCapability) :
    ((k.setExt ext tab).destroyObject cap).endpoints = (k.destroyObject cap).endpoints ∧
      ((k.setExt ext tab).destroyObject cap).ports = (k.destroyObject cap).ports ∧
      ((k.setExt ext tab).destroyObject cap).arena = (k.destroyObject cap).arena := by
  unfold destroyObject
  cases cap.objectType <;> exact ⟨rfl, rfl, rfl⟩

theorem destroyed_cleanupSlot (hne : ext ≠ k.extIndex k.current) (i : ℕ) :
    Destroyed ext (· = i) k (cleanupSlot ext k i) := by
  by_cases hhit : k.Hits ext i
  · have hcap (tab : CapTable) : (k.setExt ext tab).resolveWith i ipcCapRightRevoke =
        some (k.ownTable.caps i) := by
      obtain ⟨cap, hcap⟩ := Option.isSome_iff_exists.mp hhit.2
      obtain ⟨hres, -⟩ := Option.filter_eq_some_iff.mp hcap
      obtain ⟨-, rfl, -⟩ := (CapTable.resolve_eq_some_iff _).mp hres
      exact (resolveWith_setExt hne tab i ipcCapRightRevoke).trans hcap
    have hdestroy (tab : CapTable) : ((k.setExt ext tab).sysIpcObjectDestroy i).2 =
        let k₁ := (k.setExt ext tab).destroyObject (k.ownTable.caps i)
        k₁.setOwnTable (k₁.ownTable.freeSlot i) := by
      unfold sysIpcObjectDestroy
      rw [hcap tab]
    rw [cleanupSlot_of_isValid hhit.1.1]
    dsimp only
    rw [if_pos hhit.1, hdestroy]
    obtain ⟨he, hp, ha⟩ := k.destroyObject_setExt ext ((k.ipcExt ext).set i
      { (k.ipcExt ext).caps i with refCount := ((k.ipcExt ext).caps i).refCount - 1 })
      (k.ownTable.caps i)
    exact (destroyed_destroyObject hhit).congr he hp ha
  · obtain ⟨tab, htab, -⟩ := cleanupSlot_of_not_hits hne hhit
    rw [htab]
    exact (Destroyed.refl k fun j hj => hj ▸ hhit).congr rfl rfl rfl

theorem Destroyed.succ {n : ℕ} {k₁ k₂ : Kernel} (h : Destroyed ext (· < n) k k₁)
    (hsweep : SweptUpTo ext n k k₁) (hstep : Destroyed ext (· = n) k₁ k₂) :
    Destroyed ext (· < n + 1) k k₂ := by
  have hep (j : ℕ) : k₁.Destroys ext n j ↔ k.Destroys ext n j := by
    unfold Destroys
    rw [hsweep.hits, hsweep.slot]
  have hport (j : ℕ) : k₁.DestroysPort ext n j ↔ k.DestroysPort ext n j := by
    unfold DestroysPort
    rw [hsweep.hits, hsweep.slot]
  have hsplit {p : ℕ → Prop} : (∃ i, i < n + 1 ∧ p i) ↔ (∃ i, i < n ∧ p i) ∨ p n := by
    simp only [Nat.lt_succ_iff_lt_or_eq, or_and_right, exists_or, exists_eq_left]
  refine ⟨fun j => ?_, fun j => ?_, fun j ptr => ?_, fun j => ?_, fun j => ?_, ?_, fun x => ?_⟩
  · rw [hstep.boundTask, h.boundTask]
  · rw [hstep.state, h.state, exists_eq_left, hep, hsplit, or_assoc]
  · rw [hstep.msgRing, h.msgRing, exists_eq_left, hep, hsplit, not_or, and_assoc]
  · rw [hstep.ownerTask, h.ownerTask]
  · rw [hstep.portState, h.portState, exists_eq_left, hport, hsplit, or_assoc]
  · rw [hstep.userSize, h.userSize]
  · have hblock (ptr : ℕ) : k₁.arena.InBlock ptr x ↔ k.arena.InBlock ptr x := by
      unfold Arena.InBlock
      rw [h.userSize]
    rw [hstep.freeAt, h.freeAt, or_assoc]
    apply or_congr_right
    constructor
    · rintro (⟨i, j, ptr, hi, hd, hrest⟩ | ⟨i, j, ptr, rfl, hd, hring, hin⟩)
      · exact ⟨i, j, ptr, Nat.lt_succ_of_lt hi, hd, hrest⟩
      · exact ⟨i, j, ptr, Nat.lt_succ_self i, (hep j).mp hd, ((h.msgRing j ptr).mp hring).1,
          (hblock ptr).mp hin⟩
    · rintro ⟨i, j, ptr, hi, hd, hring, hin⟩
      -- a ring that an earlier slot gave back is not there any more
      by_cases hearlier : ∃ i', i' < n ∧ k.Destroys ext i' j
      · obtain ⟨i', hi', hd'⟩ := hearlier
        exact .inl ⟨i', j, ptr, hi', hd', hring, hin⟩
      · obtain rfl : i = n := by
          by_contra hne
          exact hearlier ⟨i, by omega, hd⟩
        exact .inr ⟨i, j, ptr, rfl, (hep j).mpr hd, (h.msgRing j ptr).mpr ⟨hring, hearlier⟩,
          (hblock ptr).mpr hin⟩

theorem destroyed_foldl (hne : ext ≠ k.extIndex k.current) {n : ℕ} (hn : n ≤ ipcCapMaxPerTask) :
    Destroyed ext (· < n) k ((range n).foldl (cleanupSlot ext) k) := by
  induction n with
  | zero => exact .refl k fun i hi => absurd hi (Nat.not_lt_zero i)
  | succ n ih =>
    have hsweep := sweptUpTo_foldl hne (by omega : n ≤ ipcCapMaxPerTask)
    have hrest := ih (by omega)
    rw [range_succ, foldl_append, foldl_cons, foldl_nil]
    have hne₁ : ext ≠ ((range n).foldl (cleanupSlot ext) k).extIndex
        ((range n).foldl (cleanupSlot ext) k).current := by
      unfold extIndex
      rw [hsweep.tasks, hsweep.current]
      exact hne
    exact hrest.succ hsweep (destroyed_cleanupSlot hne₁ n)

theorem destroyed_schedIpcCleanupThread (k : Kernel) (child : ℕ) : Destroyed (k.extIndex child)
      (fun i => i < ipcCapMaxPerTask ∧ k.extIndex child ≠ k.extIndex k.current) k
      (k.schedIpcCleanupThread child) := by
  by_cases hext : k.extIndex child = k.extIndex k.current
  · rw [schedIpcCleanupThread_of_shared hext]
    exact (Destroyed.refl k fun i hi => absurd hext hi.2).congr rfl rfl rfl
  · have hfold := destroyed_foldl hext (le_refl ipcCapMaxPerTask)
    have hslots : (fun i => i < ipcCapMaxPerTask ∧ k.extIndex child ≠ k.extIndex k.current) =
        (· < ipcCapMaxPerTask) := by
      funext i
      exact propext (and_iff_left hext)
    rw [hslots]
    unfold schedIpcCleanupThread
    dsimp only
    generalize (range ipcCapMaxPerTask).foldl _ k = k₁ at hfold ⊢
    exact hfold.congr rfl rfl rfl

end Kernel
end SageOS
