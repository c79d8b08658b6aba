import SageOS.BackendTrace

/-!
# When a call has one effect

The first match of the bridge decides whether its script touches a driver at all, and whatever it
does only lengthens the trace. A call on a backend that has the operation has one effect exactly
when the first attempt succeeds: otherwise the backend is asked again, or the answer of the bridge
is returned in place of the failure.
-/
namespace SageOS
open List
variable {σ β : Type} {hit : BridgeMount (Traced σ) × Bytes}
  {hits : List (BridgeMount (Traced σ) × Bytes)}

theorem BackendOp.traced_trace (d : Driver) (op : VfsOp) (f : BackendOp σ β) (rel : Bytes)
    (buf : β) (s : Traced σ) :
    (f.traced d op rel buf s).2.2.trace = s.trace ++ [.call d op rel] := rfl

namespace Mutation
variable (c : Mutation) (viaDouble : ℕ → ℕ)

theorem opOf_traced (d : Driver) (b : VfsBackend σ) :
    c.opOf (b.traced d) = (c.opOf b).map (BackendOp.traced d c.op) := by
  cases c with
  | write offset data => simp only [opOf, VfsBackend.traced, Option.map_map]; rfl
  | mkdir => rfl
  | create => rfl
  | unlink => rfl

theorem perform_eq_route (v : Vfs (Traced σ)) (path : Bytes) (s : VfsState (Traced σ)) :
    c.perform v path s = v.route c.op c.opOf c.succeeds path () s := by
  cases c <;> rfl

theorem not_succeeds_vfsENOENT : c.succeeds vfsENOENT = false := by
  cases c <;> rfl

/-- The procedure of the bridge a call ends up in. -/
def script : Mutation → List (BridgeMount (Traced σ) × Bytes) → Traced σ → Option ℤ × Traced σ
  | .write offset data => Bridge.vfsWrite (viaDouble offset) data
  | .mkdir => Bridge.vfsModify (·.mkdir)
  | .create => Bridge.vfsModify (·.create)
  | .unlink => Bridge.vfsModify (·.unlink)

theorem opOf_procedures (ms : List (ScriptMount σ)) :
    c.opOf (Bridge.procedures viaDouble ms) = some fun path _ s =>
      Bridge.answer (c.script viaDouble (vfsResolveBest (ms.map (·.toBridge)) path) s) := by
  cases c <;> rfl

end Mutation

namespace Bridge

def Adds (s s' : Traced σ) : Prop := ∃ a l, s'.trace = s.trace ++ a :: l

theorem Adds.trans_le {s s' s'' : Traced σ} (h : Adds s s') (h' : s'.trace <+: s''.trace) :
    Adds s s'' := by
  obtain ⟨a, l, hl⟩ := h
  obtain ⟨l', hl'⟩ := h'
  exact ⟨a, l ++ l', by rw [← hl', hl, append_assoc, cons_append]⟩

theorem Adds.le {s s' : Traced σ} (h : Adds s s') : s.trace <+: s'.trace := by
  obtain ⟨a, l, hl⟩ := h
  rw [hl]
  exact prefix_append _ _

theorem Adds.trace_ne {s s' : Traced σ} (h : Adds s s') : s'.trace ≠ s.trace := by
  obtain ⟨a, l, hl⟩ := h
  rw [hl]
  simp

def FromScript (hit : BridgeMount (Traced σ) × Bytes) : Prop :=
  ∃ m : ScriptMount σ, hit.1 = m.toBridge

theorem adds_traced (d : Driver) (op : VfsOp) (f : BackendOp σ β) (rel : Bytes) (buf : β)
    (s : Traced σ) : Adds s (f.traced d op rel buf s).2.2 :=
  ⟨.call d op rel, [], BackendOp.traced_trace d op f rel buf s⟩

theorem adds_osBackendWrite (d : Driver) (b : VfsBackend σ) (rel : Bytes) (offset : ℕ)
    (data : Bytes) (s : Traced σ) : Adds s (osBackendWrite (b.traced d) rel offset data s).2 := by
  unfold osBackendWrite VfsBackend.traced
  cases b.write with
  | none => exact ⟨.wild, [], rfl⟩
  | some f => exact adds_traced d .write (f offset data) rel () s

theorem writeTo_spec (offset : ℕ) (data : Bytes) (hhit : FromScript hit) (s : Traced σ) :
    (¬ Acts (.write offset data) hit ∧ writeTo offset data hit s = (none, s)) ∨
      Acts (.write offset data) hit ∧ Adds s (writeTo offset data hit s).2 := by
  obtain ⟨m, hm⟩ := hhit
  unfold Acts writeTo
  rw [hm]
  cases hd : m.driver with
  | native id =>
    right
    simpa [ScriptMount.toBridge, hd, Mutation.op] using
      adds_osBackendWrite (.native id) m.ops hit.2 offset data s
  | sage =>
    cases hw : m.ops.write with
    | none =>
      left
      simp [ScriptMount.toBridge, hd, VfsBackend.traced, hw, Mutation.opOf]
    | some f =>
      right
      simpa [ScriptMount.toBridge, hd, VfsBackend.traced, hw, Mutation.opOf] using
        adds_traced .sage .write (f offset data) hit.2 () s

theorem vfsWrite_cons (offset : ℕ) (data : Bytes) (hit : BridgeMount (Traced σ) × Bytes)
    (hits : List (BridgeMount (Traced σ) × Bytes)) (s : Traced σ) :
    vfsWrite offset data (hit :: hits) s =
      match writeTo offset data hit s with
      | (none, s') => (none, s')
      | (some n, s') => if 0 < n then (some n, s') else vfsWrite offset data hits s' := rfl

theorem vfsWrite_le (offset : ℕ) (data : Bytes) (hhits : ∀ hit ∈ hits, FromScript hit)
    (s : Traced σ) : s.trace <+: (vfsWrite offset data hits s).2.trace := by
  induction hits generalizing s with
  | nil => exact prefix_rfl
  | cons hit hits ih =>
    rw [vfsWrite_cons]
    rcases writeTo_spec offset data (hhits hit (by simp)) s with ⟨-, hnone⟩ | ⟨-, hadds⟩
    · rw [hnone]
    · rcases hw : writeTo offset data hit s with ⟨n, s'⟩
      rw [hw] at hadds
      cases n with
      | none => exact hadds.le
      | some n =>
        dsimp only
        split_ifs
        · exact hadds.le
        · exact hadds.le.trans (ih (fun x hx => hhits x (mem_cons_of_mem _ hx)) s')

theorem vfsWrite_spec (offset : ℕ) (data : Bytes) (hhits : ∀ x ∈ hit :: hits, FromScript x)
    (s : Traced σ) :
    (¬ Acts (.write offset data) hit ∧ (vfsWrite offset data (hit :: hits) s).2 = s) ∨
      Acts (.write offset data) hit ∧ Adds s (vfsWrite offset data (hit :: hits) s).2 := by
  rw [vfsWrite_cons]
  rcases writeTo_spec offset data (hhits hit (by simp)) s with ⟨hnot, hnone⟩ | ⟨hacts, hadds⟩
  · exact .inl ⟨hnot, by rw [hnone]⟩
  · refine .inr ⟨hacts, ?_⟩
    rcases hw : writeTo offset data hit s with ⟨n, s'⟩
    rw [hw] at hadds
    cases n with
    | none => exact hadds
    | some n =>
      dsimp only
      split_ifs
      · exact hadds
      · exact hadds.trans_le
          (vfsWrite_le offset data (fun x hx => hhits x (mem_cons_of_mem _ hx)) s')

theorem acts_write_iff (offset offset' : ℕ) (data : Bytes) (hit : BridgeMount (Traced σ) × Bytes) :
    Acts (.write offset data) hit ↔ Acts (.write offset' data) hit := by
  simp [Acts, Mutation.opOf, Mutation.op]

theorem vfsModify_spec (c : Mutation) (hc : c.op ≠ .write)
    (hits : List (BridgeMount (Traced σ) × Bytes))
    (hhit : FromScript hit) (s : Traced σ) :
    (¬ Acts c hit ∧ (vfsModify c.opOf (hit :: hits) s).2 = s) ∨
      Acts c hit ∧ Adds s (vfsModify c.opOf (hit :: hits) s).2 := by
  obtain ⟨m, hm⟩ := hhit
  unfold Acts vfsModify
  cases hd : m.driver with
  | native id =>
    left
    simp [hm, ScriptMount.toBridge, hd, hc]
  | sage =>
    have hops := c.opOf_traced .sage m.ops
    cases hw : c.opOf m.ops with
    | none =>
      left
      simp [hm, ScriptMount.toBridge, hd, hops, hw]
    | some f =>
      right
      simpa [hm, ScriptMount.toBridge, hd, hops, hw] using adds_traced .sage c.op f hit.2 () s

end Bridge

namespace Mutation
open Bridge
variable (c : Mutation) (viaDouble : ℕ → ℕ)

theorem script_of_ne_write (hc : c.op ≠ .write) :
    (c.script viaDouble : List (BridgeMount (Traced σ) × Bytes) → _) = vfsModify c.opOf := by
  cases c with
  | write offset data => exact absurd rfl hc
  | mkdir => rfl
  | create => rfl
  | unlink => rfl

theorem script_spec (hhits : ∀ hit ∈ hits, FromScript hit) (s : Traced σ) :
    ((∀ hit, hits.head? = some hit → ¬ Acts c hit) ∧
        (c.script viaDouble hits s).2.trace = s.trace) ∨
      (∃ hit, hits.head? = some hit ∧ Acts c hit) ∧ Adds s (c.script viaDouble hits s).2 := by
  cases hits with
  | nil => exact .inl ⟨by simp, by cases c <;> rfl⟩
  | cons hit hits =>
    simp only [head?_cons, Option.some.injEq, forall_eq', exists_eq_left']
    by_cases hc : c.op = .write
    · cases c with
      | write offset data =>
        rcases vfsWrite_spec (viaDouble offset) data hhits s with ⟨hnot, hsame⟩ | ⟨hacts, hadds⟩
        · exact .inl ⟨(acts_write_iff _ _ _ _).not.mpr hnot, congrArg Traced.trace hsame⟩
        · exact .inr ⟨(acts_write_iff _ _ _ _).mpr hacts, hadds⟩
      | mkdir => simp [op] at hc
      | create => simp [op] at hc
      | unlink => simp [op] at hc
    · rw [c.script_of_ne_write viaDouble hc]
      rcases vfsModify_spec c hc hits (hhits hit (by simp)) s with ⟨hnot, hsame⟩ | ⟨hacts, hadds⟩
      · exact .inl ⟨hnot, congrArg Traced.trace hsame⟩
      · exact .inr ⟨hacts, hadds⟩

end Mutation

theorem fromScript_of_mem {ms : List (ScriptMount σ)} {path : Bytes}
    (h : hit ∈ vfsResolveBest (ms.map (·.toBridge)) path) : Bridge.FromScript hit := by
  obtain ⟨m, -, hm⟩ := mem_map.mp (vfsResolveBest_spec h).1
  exact ⟨m, hm.symm⟩

namespace Vfs
variable {v : Vfs σ} {op : VfsOp} {opOf : VfsBackend σ → Option (BackendOp σ β)} {ok : ℤ → Bool}
  {path : Bytes} {buf : β} {s : VfsState σ}

theorem route_of_ok
    (h : ok (attempt ⟨op, vfsNormalizePath path⟩ (v.direct opOf path) buf s).1 = true) :
    v.route op opOf ok path buf s =
      attempt ⟨op, vfsNormalizePath path⟩ (v.direct opOf path) buf s := by
  simp only [route, firstTries, h, if_true]

/-- After a failure the bridge answers, and the backend is asked again unless that succeeded. -/
theorem route_of_failed {r : ℤ × β × VfsState σ}
    (hr : attempt ⟨op, vfsNormalizePath path⟩ (v.direct opOf path) buf s = r)
    (h : ok r.1 = false) :
    v.route op opOf ok path buf s =
      let b := attempt ⟨op, vfsNormalizePath path⟩ ((v.bridge.bind opOf).map fun f => f path)
        r.2.1 r.2.2
      if ok b.1 then b
      else attempt ⟨op, vfsNormalizePath path⟩ (v.direct opOf path) b.2.1 b.2.2 := by
  simp only [route, firstTries, hr, h, Bool.false_eq_true, if_false]

end Vfs

namespace Mounted
open Bridge
variable (t : Mounted σ) (c : Mutation) (path : Bytes) {m : NativeMount σ} {rel : Bytes}

/-- The second attempt: nothing, or the procedure of the bridge. -/
def viaBridge (s : VfsState (Traced σ)) : ℤ × Unit × VfsState (Traced σ) :=
  Vfs.attempt ⟨c.op, vfsNormalizePath path⟩ ((t.vfs.bridge.bind c.opOf).map fun f => f path) () s

theorem viaBridge_eq (s : VfsState (Traced σ)) : t.viaBridge c path s =
    match t.script with
    | none => (vfsENOENT, (), s)
    | some ms => s.invoke ⟨c.op, vfsNormalizePath path⟩ fun fs =>
      answer (c.script t.viaDouble (vfsResolveBest (ms.map (·.toBridge)) path) fs) := by
  unfold viaBridge vfs
  cases t.script with
  | none => rfl
  | some ms => simp [Vfs.attempt, c.opOf_procedures]

theorem viaBridge_spec (s : VfsState (Traced σ)) :
    (¬ t.Reached c path ∧ (t.viaBridge c path s).2.2.fs.trace = s.fs.trace) ∨
      t.Reached c path ∧ Adds s.fs (t.viaBridge c path s).2.2.fs := by
  rw [t.viaBridge_eq]
  cases ht : t.script with
  | none =>
    refine .inl ⟨?_, rfl⟩
    rintro ⟨ms, hms, -⟩
    simp [ht] at hms
  | some ms =>
    have hreached : t.Reached c path ↔
        ∃ hit, (vfsResolveBest (ms.map (·.toBridge)) path).head? = some hit ∧ Acts c hit := by
      simp [Reached, ht]
    have hhits : ∀ hit ∈ vfsResolveBest (ms.map (·.toBridge)) path, FromScript hit :=
      fun _ => fromScript_of_mem
    rw [hreached]
    rcases c.script_spec t.viaDouble hhits s.fs with ⟨hnot, hsame⟩ | ⟨hacts, hadds⟩
    · refine .inl ⟨?_, hsame⟩
      rintro ⟨hit, hhead, hacts⟩
      exact hnot hit hhead hacts
    · exact .inr ⟨hacts, hadds⟩

theorem le_viaBridge (s : VfsState (Traced σ)) :
    s.fs.trace <+: (t.viaBridge c path s).2.2.fs.trace := by
  rcases t.viaBridge_spec c path s with ⟨-, hsame⟩ | ⟨-, hadds⟩
  · rw [hsame]
  · exact hadds.le

section
variable {c path} (hsel : resolveMount t.vfs.mounts (vfsNormalizePath path) = some (m.toVfs, rel))
include hsel

theorem direct_eq : t.vfs.direct c.opOf path =
    (c.opOf m.ops).map fun f => f.traced (.native m.id) c.op rel := by
  unfold Vfs.direct
  rw [hsel]
  simp [NativeMount.toVfs, c.opOf_traced, Option.map_map, Function.comp_def]

theorem oneEffect_of_none (s : VfsState (Traced σ)) (hop : c.opOf m.ops = none) :
    t.OneEffect c m rel path s ↔ ¬ t.Reached c path := by
  have hdirect : t.vfs.direct c.opOf path = none := by simp [t.direct_eq hsel, hop]
  have htrace : (c.perform t.vfs path s).2.2.fs.trace = (t.viaBridge c path s).2.2.fs.trace := by
    rw [c.perform_eq_route, Vfs.route_of_failed rfl]
    · rw [hdirect]
      dsimp only
      split_ifs <;> rfl
    · rw [hdirect]
      exact c.not_succeeds_vfsENOENT
  unfold OneEffect
  rw [hop]
  dsimp only
  rw [htrace]
  rcases t.viaBridge_spec c path s with ⟨hnot, hsame⟩ | ⟨hreach, hadds⟩
  · exact iff_of_true hsame hnot
  · exact iff_of_false hadds.trace_ne (not_not.mpr hreach)

theorem oneEffect_of_some (s : VfsState (Traced σ)) {f : BackendOp σ Unit}
    (hop : c.opOf m.ops = some f) :
    t.OneEffect c m rel path s ↔ c.succeeds (f rel () s.fs.fs).1 = true := by
  have hdirect : t.vfs.direct c.opOf path = some (f.traced (.native m.id) c.op rel) := by
    simp [t.direct_eq hsel, hop]
  have hfirst : Vfs.attempt ⟨c.op, vfsNormalizePath path⟩ (t.vfs.direct c.opOf path) () s =
      s.invoke ⟨c.op, vfsNormalizePath path⟩ (f.traced (.native m.id) c.op rel ()) := by
    rw [hdirect]
    rfl
  unfold OneEffect
  rw [hop]
  rw [c.perform_eq_route]
  cases hok : c.succeeds (f rel () s.fs.fs).1 with
  | true =>
    rw [Vfs.route_of_ok (by rw [hfirst]; exact hok), hfirst]
    exact iff_of_true ⟨rfl, rfl⟩ rfl
  | false =>
    refine iff_of_false ?_ (by simp)
    rintro ⟨htrace, hresult⟩
    rw [Vfs.route_of_failed hfirst hok] at htrace hresult
    dsimp only at htrace hresult
    split_ifs at htrace hresult with hbridge
    · rw [hresult, hok] at hbridge
      simp at hbridge
    · rw [hdirect] at htrace
      have hagain : (t.viaBridge c path (s.invoke ⟨c.op, vfsNormalizePath path⟩
          (f.traced (.native m.id) c.op rel ())).2.2).2.2.fs.trace ++
            [.call (.native m.id) c.op rel] =
          s.fs.trace ++ [.call (.native m.id) c.op rel] := htrace
      have hle := (t.le_viaBridge c path (s.invoke ⟨c.op, vfsNormalizePath path⟩
        (f.traced (.native m.id) c.op rel ())).2.2).length_le
      rw [append_cancel_right hagain] at hle
      simp [VfsState.invoke, BackendOp.traced_trace] at hle

theorem one_effect_iff (s : VfsState (Traced σ)) : t.OneEffect c m rel path s ↔
      match c.opOf m.ops with
      | some f => c.succeeds (f rel () s.fs.fs).1 = true
      | none => ¬ t.Reached c path := by
  cases hop : c.opOf m.ops with
  | none => exact t.oneEffect_of_none hsel s hop
  | some f => exact t.oneEffect_of_some hsel s hop

end

/-- A backend on a full disk, known to both routers. -/
def fullDisk : Mounted Unit where
  native := [⟨[slash], 7, { write := some fun _ _ _ _ _ => (vfsENOSPC, (), ()) }, true⟩]
  script := some [⟨[slash], .native 7, { write := some fun _ _ _ _ _ => (vfsENOSPC, (), ()) }⟩]
  viaDouble n := n

def onDisk : VfsState (Traced Unit) := ⟨⟨(), []⟩, []⟩

/-- The failed write is repeated by the bridge and reported as a write of no bytes. -/
theorem full_disk_written_twice :
    (Mutation.perform fullDisk.vfs (bytes "/f") onDisk (.write 0 (bytes "x"))).1 = 0 ∧
    (Mutation.perform fullDisk.vfs (bytes "/f") onDisk (.write 0 (bytes "x"))).2.2.fs.trace =
      [.call (.native 7) .write (bytes "/f"), .call (.native 7) .write (bytes "/f")] ∧
    ¬ fullDisk.OneEffect (.write 0 (bytes "x"))
      ⟨[slash], 7, { write := some fun _ _ _ _ _ => (vfsENOSPC, (), ()) }, true⟩
      (bytes "/f") (bytes "/f") onDisk := by
  refine ⟨by decide +kernel, by decide +kernel, ?_⟩
  rintro ⟨-, hresult⟩
  exact absurd hresult (by decide +kernel)

def roomyDisk : Mounted Unit where
  native := [⟨[slash], 7, { write := some fun _ data _ _ _ => (data.length, (), ()) }, true⟩]
  script := some [⟨[slash], .native 7, { write := some fun _ data _ _ _ => (data.length, (), ()) }⟩]
  viaDouble n := n

theorem roomy_disk_written_once : roomyDisk.OneEffect (.write 0 (bytes "x"))
      ⟨[slash], 7, { write := some fun _ data _ _ _ => (data.length, (), ()) }, true⟩
      (bytes "/f") (bytes "/f") onDisk := by
  have hsel : resolveMount roomyDisk.vfs.mounts (vfsNormalizePath (bytes "/f")) =
      some (NativeMount.toVfs ⟨[slash], 7,
        { write := some fun _ data _ _ _ => (data.length, (), ()) }, true⟩, bytes "/f") := rfl
  rw [roomyDisk.one_effect_iff hsel]
  rfl

end Mounted
end SageOS
