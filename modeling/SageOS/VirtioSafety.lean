import SageOS.VirtioBlock

/-!
# Runs of the block driver

While calls do not overlap and no read gives up, at most one request is outstanding. It is then
in one of three places: published, fetched by the device, or completed. A read that gives up
leaves its request behind, and the next change of the used index is taken for the completion of
a later call.
-/
namespace SageOS.VirtioBlk
open GuardedRun List
variable {s : VirtioBlk} {t : ℕ} {c : BlkCaller}

/-- No call starts while another one is in progress, and no read polls in vain for the last
time. -/
def Patient (s : VirtioBlk) : BlkEvent → Prop
  | .invoke _ _ => ∀ t, s.callers t = none
  | .step t => ∀ c timeout, s.callers t = some c → c.phase = .poll timeout →
      c.call.write = false → pollLimit ≤ timeout → ¬ s.UsedUnchanged
  | _ => True

def only (t : ℕ) (c : BlkCaller) : ℕ → Option BlkCaller :=
  Function.update (fun _ => none) t (some c)

@[simp] theorem only_self : only t c t = some c := by simp [only]

theorem eq_of_only {t' : ℕ} {c' : BlkCaller} (h : only t c t' = some c') : t' = t ∧ c' = c := by
  by_cases ht : t' = t
  · subst ht
    simpa [eq_comm] using h
  · simp [only, ht] at h

@[simp] theorem update_only_some (c' : BlkCaller) :
    Function.update (only t c) t (some c') = only t c' := by simp [only]

@[simp] theorem update_only_none : Function.update (only t c) t none = fun _ => none := by
  simp [only]

structure Settled (s : VirtioBlk) : Prop where
  pending : s.pending = []
  taken : s.taken = s.availIdx
  used : s.usedIdx = s.availIdx

def Quiet (s : VirtioBlk) : Prop := s.Settled ∧ s.UsedUnchanged

/-- The request of `c` has been completed, and the status byte is the one it was completed
with. -/
structure Done (s : VirtioBlk) (c : BlkCaller) : Prop where
  completion : ∃ d ∈ s.completions, d.chain = c.chain ∧ d.status = s.blkStatus
  read : s.blkStatus = 0 → c.call.write = false →
    s.mem c.call.buffer = s.disk c.call.lba.toUInt64
  written : s.blkStatus = 0 → c.call.write = true → s.disk c.call.lba.toUInt64 = c.call.data

/-- The chain in memory is the one of `c`. -/
def Filled (s : VirtioBlk) (c : BlkCaller) : Prop :=
  s.req = c.call.header ∧ s.dataAddr = c.call.buffer ∧ s.dataFlags = c.call.flags

/-- Where the published request of `c` is. -/
inductive Outstanding (s : VirtioBlk) (c : BlkCaller) : Prop
  | published (pending : s.pending = []) (taken : s.taken + 1 = s.availIdx)
      (used : s.usedIdx = s.taken) (last : s.UsedUnchanged) (filled : s.Filled c)
      (request : c.request = s.taken) (data : s.mem c.call.buffer = c.call.data)
  | fetched (pending : s.pending = [c.chain]) (taken : s.taken = s.availIdx)
      (used : s.usedIdx + 1 = s.availIdx) (last : s.UsedUnchanged)
      (data : s.mem c.call.buffer = c.call.data)
  | completed (settled : s.Settled) (last : ¬ s.UsedUnchanged) (done : s.Done c)

def Stage (s : VirtioBlk) (c : BlkCaller) : Prop :=
  match c.phase with
  | .reqType => s.Quiet ∧ s.mem c.call.buffer = c.call.data
  | .reqSector =>
    s.Quiet ∧ s.mem c.call.buffer = c.call.data ∧ s.req.type = c.call.header.type
  | .clearStatus | .dataAddr => s.Quiet ∧ s.mem c.call.buffer = c.call.data ∧ s.req = c.call.header
  | .dataFlags => s.Quiet ∧ s.mem c.call.buffer = c.call.data ∧ s.req = c.call.header ∧
      s.dataAddr = c.call.buffer
  | .publish => s.Quiet ∧ s.mem c.call.buffer = c.call.data ∧ s.Filled c
  | .poll _ => s.Outstanding c
  | .seen => s.Settled ∧ s.Done c
  | .leave => s.Quiet ∧ s.Done c

inductive Orderly (s : VirtioBlk) : Prop
  | idle (callers : s.callers = fun _ => none) (quiet : s.Quiet)
  | busy (t : ℕ) (c : BlkCaller) (callers : s.callers = only t c) (stage : s.Stage c)

theorem ofNat_succ_ne (n : ℕ) : UInt16.ofNat (n + 1) ≠ UInt16.ofNat n := by
  intro h
  have h' := congrArg UInt16.toNat h
  simp only [UInt16.toNat_ofNat'] at h'
  omega

theorem Start.orderly (h : s.Start) : s.Orderly := by
  apply Orderly.idle (funext h.callers)
  refine ⟨⟨h.pending, ?_, ?_⟩, ?_⟩
  · rw [h.taken, h.avail]
  · rw [h.used, h.avail]
  · simp [UsedUnchanged, h.used, h.last]

theorem Orderly.invoke (h : s.Orderly) (hnone : ∀ t, s.callers t = none) (t : ℕ)
    (call : BlkCall) : (s.invoke t call).Orderly := by
  cases h with
  | idle hc hq =>
    by_cases hp : s.present = true
    · have he : s.invoke t call = { s with
          mem := Function.update s.mem call.buffer call.data
          callers := only t ⟨call, .reqType, 0⟩ } := by
        simp [VirtioBlk.invoke, hc, hp, only]
      rw [he]
      exact .busy t _ rfl ⟨⟨⟨hq.1.pending, hq.1.taken, hq.1.used⟩, hq.2⟩, by simp⟩
    · have he : s.invoke t call = s := by simp [VirtioBlk.invoke, hc, hp]
      rw [he]
      exact .idle hc hq
  | busy t' c hc hs =>
    have := hnone t'
    simp [hc] at this

theorem Stage.stepCaller (hc : s.callers = only t c) (h : s.Stage c)
    (hp : ∀ timeout, c.phase = .poll timeout → c.call.write = false → pollLimit ≤ timeout →
      ¬ s.UsedUnchanged) : (s.stepCaller t c).Orderly := by
  obtain ⟨call, phase, request⟩ := c
  cases phase with
  | reqType =>
    obtain ⟨⟨⟨h1, h2, h3⟩, h4⟩, hm⟩ := h
    exact .busy t ⟨call, .reqSector, request⟩ (by simp [VirtioBlk.stepCaller, goTo, hc])
      ⟨⟨⟨h1, h2, h3⟩, h4⟩, hm, rfl⟩
  | reqSector =>
    obtain ⟨⟨⟨h1, h2, h3⟩, h4⟩, hm, hty⟩ := h
    refine .busy t ⟨call, .clearStatus, request⟩ (by simp [VirtioBlk.stepCaller, goTo, hc])
      ⟨⟨⟨h1, h2, h3⟩, h4⟩, hm, ?_⟩
    simp only [VirtioBlk.stepCaller, goTo]
    rw [hty]
  | clearStatus =>
    obtain ⟨⟨⟨h1, h2, h3⟩, h4⟩, hm, hreq⟩ := h
    exact .busy t ⟨call, .dataAddr, request⟩ (by simp [VirtioBlk.stepCaller, goTo, hc])
      ⟨⟨⟨h1, h2, h3⟩, h4⟩, hm, hreq⟩
  | dataAddr =>
    obtain ⟨⟨⟨h1, h2, h3⟩, h4⟩, hm, hreq⟩ := h
    exact .busy t ⟨call, .dataFlags, request⟩ (by simp [VirtioBlk.stepCaller, goTo, hc])
      ⟨⟨⟨h1, h2, h3⟩, h4⟩, hm, hreq, rfl⟩
  | dataFlags =>
    obtain ⟨⟨⟨h1, h2, h3⟩, h4⟩, hm, hreq, haddr⟩ := h
    exact .busy t ⟨call, .publish, request⟩ (by simp [VirtioBlk.stepCaller, goTo, hc])
      ⟨⟨⟨h1, h2, h3⟩, h4⟩, hm, hreq, haddr, rfl⟩
  | publish =>
    obtain ⟨⟨⟨h1, h2, h3⟩, h4⟩, hm, hfill⟩ := h
    refine .busy t ⟨call, .poll 0, s.availIdx⟩ (by simp [VirtioBlk.stepCaller, goTo, hc]) ?_
    refine .published h1 ?_ ?_ h4 hfill ?_ hm
    · simp [VirtioBlk.stepCaller, goTo, h2]
    · simp [VirtioBlk.stepCaller, goTo, h2, h3]
    · simp [VirtioBlk.stepCaller, goTo, h2]
  | poll timeout =>
    have hgo : ∀ phase', (s.goTo t ⟨call, .poll timeout, request⟩ phase').callers =
        only t ⟨call, phase', request⟩ := fun phase' => by simp [goTo, hc]
    by_cases hu : s.UsedUnchanged
    · by_cases hw : call.write = true
      · have he : s.stepCaller t ⟨call, .poll timeout, request⟩ = s := by
          simp [VirtioBlk.stepCaller, hu, hw]
        rw [he]
        exact .busy t _ hc h
      · have hlt : ¬ pollLimit < timeout + 1 := by
          intro hlt
          exact hp timeout rfl (by simpa using hw) (by omega) hu
        have he : s.stepCaller t ⟨call, .poll timeout, request⟩ =
            s.goTo t ⟨call, .poll timeout, request⟩ (.poll (timeout + 1)) := by
          simp [VirtioBlk.stepCaller, hu, hw, hlt]
        rw [he]
        refine .busy t _ (hgo _) ?_
        cases h with
        | published h1 h2 h3 h4 h5 h6 h7 => exact .published h1 h2 h3 h4 h5 h6 h7
        | fetched h1 h2 h3 h4 h5 => exact .fetched h1 h2 h3 h4 h5
        | completed h1 h2 h3 => exact absurd hu h2
    · have he : s.stepCaller t ⟨call, .poll timeout, request⟩ =
          s.goTo t ⟨call, .poll timeout, request⟩ .seen := by
        simp [VirtioBlk.stepCaller, hu]
      rw [he]
      refine .busy t _ (hgo _) ?_
      cases h with
      | published h1 h2 h3 h4 h5 h6 h7 => exact absurd h4 hu
      | fetched h1 h2 h3 h4 h5 => exact absurd h4 hu
      | completed h1 h2 h3 =>
        exact ⟨⟨h1.pending, h1.taken, h1.used⟩, h3.completion, h3.read, h3.written⟩
  | seen =>
    obtain ⟨⟨h1, h2, h3⟩, hd⟩ := h
    exact .busy t ⟨call, .leave, request⟩ (by simp [VirtioBlk.stepCaller, goTo, hc])
      ⟨⟨⟨h1, h2, h3⟩, rfl⟩, hd.completion, hd.read, hd.written⟩
  | leave =>
    obtain ⟨⟨⟨h1, h2, h3⟩, h4⟩, -⟩ := h
    exact .idle (by simp [VirtioBlk.stepCaller, VirtioBlk.leave, hc]) ⟨⟨h1, h2, h3⟩, h4⟩

theorem Settled.fetch (h : s.Settled) : s.fetch = s := by simp [VirtioBlk.fetch, h.taken]

theorem Settled.complete (h : s.Settled) (status : UInt8) (junk : SectorData) :
    s.complete status junk = s := by simp [VirtioBlk.complete, h.pending]

/-- Before its request is published, and after it is completed, a call has nothing that the
device could act on. -/
theorem Stage.settled (h : s.Stage c) (hp : ∀ timeout, c.phase ≠ .poll timeout) : s.Settled := by
  obtain ⟨call, phase, request⟩ := c
  cases phase with
  | poll timeout => exact absurd rfl (hp timeout)
  | seen => exact h.1
  | _ => exact h.1.1

theorem Outstanding.fetch (h : s.Outstanding c) : s.fetch.Outstanding c := by
  cases h with
  | published h1 h2 h3 h4 h5 h6 h7 =>
    have hne : UInt16.ofNat s.taken ≠ UInt16.ofNat s.availIdx := by
      rw [← h2]
      exact (ofNat_succ_ne s.taken).symm
    simp only [VirtioBlk.fetch, if_neg hne]
    refine .fetched ?_ h2 ?_ h4 h7
    · simp [h1, BlkCaller.chain, h5.1, h5.2.1, h5.2.2, h6]
    · simp only
      omega
  | fetched h1 h2 h3 h4 h5 =>
    have he : s.fetch = s := by simp [VirtioBlk.fetch, h2]
    rw [he]
    exact .fetched h1 h2 h3 h4 h5
  | completed h1 h2 h3 =>
    rw [h1.fetch]
    exact .completed h1 h2 h3

theorem transfer_chain (c : BlkCaller) (hdata : s.mem c.call.buffer = c.call.data) (status : UInt8)
    (junk : SectorData) :
    let r := s.transfer c.chain status junk
    r.2.chain = c.chain ∧ r.2.status = r.1.blkStatus ∧
    (r.1.blkStatus = 0 → c.call.write = false →
      r.1.mem c.call.buffer = r.1.disk c.call.lba.toUInt64) ∧
    (r.1.blkStatus = 0 → c.call.write = true → r.1.disk c.call.lba.toUInt64 = c.call.data) ∧
    r.1.availIdx = s.availIdx ∧ r.1.taken = s.taken ∧ r.1.lastUsedIdx = s.lastUsedIdx ∧
    r.1.callers = s.callers := by
  cases hw : c.call.write with
  | false =>
    have hin : c.chain.req.type = virtioBlkTIn ∧
        c.chain.flags &&& vringDescFWrite = vringDescFWrite := by
      simp only [BlkCaller.chain, BlkCall.header, BlkCall.flags, hw]
      decide
    simp only [transfer, if_pos hin]
    simp +contextual [BlkCaller.chain, BlkCall.header]
  | true =>
    have hin : ¬ (c.chain.req.type = virtioBlkTIn ∧
        c.chain.flags &&& vringDescFWrite = vringDescFWrite) := by
      simp only [BlkCaller.chain, BlkCall.header, BlkCall.flags, hw]
      decide
    have hout : c.chain.req.type = virtioBlkTOut ∧ c.chain.flags &&& vringDescFWrite = 0 := by
      simp only [BlkCaller.chain, BlkCall.header, BlkCall.flags, hw]
      decide
    simp only [transfer, if_neg hin, if_pos hout]
    simp +contextual [BlkCaller.chain, BlkCall.header, hdata]

theorem Outstanding.complete (h : s.Outstanding c) (status : UInt8) (junk : SectorData) :
    (s.complete status junk).Outstanding c ∧ (s.complete status junk).callers = s.callers := by
  cases h with
  | published h1 h2 h3 h4 h5 h6 h7 =>
    have he : s.complete status junk = s := by simp [VirtioBlk.complete, h1]
    rw [he]
    exact ⟨.published h1 h2 h3 h4 h5 h6 h7, rfl⟩
  | fetched h1 h2 h3 h4 h5 =>
    obtain ⟨hchain, hstatus, hread, hwritten, havail, htaken, hlast, hcallers⟩ :=
      transfer_chain c h5 status junk
    have hdone : ∃ d ∈ (s.complete status junk).completions, d.chain = c.chain ∧
        d.status = (s.complete status junk).blkStatus := by
      simp only [VirtioBlk.complete, h1]
      exact ⟨_, mem_cons_self, hchain, hstatus⟩
    simp only [VirtioBlk.complete, h1] at hdone ⊢
    refine ⟨.completed ⟨rfl, ?_, ?_⟩ ?_ ⟨hdone, hread, hwritten⟩, hcallers⟩
    · simpa [htaken, havail] using h2
    · simpa [havail] using h3
    · simp only [UsedUnchanged, hlast]
      rw [← h4]
      exact ofNat_succ_ne s.usedIdx
  | completed h1 h2 h3 =>
    rw [h1.complete]
    exact ⟨.completed h1 h2 h3, rfl⟩

theorem fetch_callers : s.fetch.callers = s.callers := by
  unfold VirtioBlk.fetch
  split <;> rfl

theorem Orderly.fetch (h : s.Orderly) : s.fetch.Orderly := by
  cases h with
  | idle hc hq =>
    rw [hq.1.fetch]
    exact .idle hc hq
  | busy t c hc hs =>
    by_cases hp : ∃ timeout, c.phase = .poll timeout
    · obtain ⟨timeout, hp⟩ := hp
      refine .busy t c (fetch_callers.trans hc) ?_
      simp only [Stage, hp] at hs ⊢
      exact hs.fetch
    · rw [(hs.settled (by simpa using hp)).fetch]
      exact .busy t c hc hs

theorem Orderly.complete (h : s.Orderly) (status : UInt8) (junk : SectorData) :
    (s.complete status junk).Orderly := by
  cases h with
  | idle hc hq =>
    rw [hq.1.complete]
    exact .idle hc hq
  | busy t c hc hs =>
    by_cases hp : ∃ timeout, c.phase = .poll timeout
    · obtain ⟨timeout, hp⟩ := hp
      simp only [Stage, hp] at hs
      obtain ⟨hs', hc'⟩ := hs.complete status junk
      refine .busy t c (hc'.trans hc) ?_
      simpa only [Stage, hp] using hs'
    · rw [(hs.settled (by simpa using hp)).complete]
      exact .busy t c hc hs

theorem Orderly.step (h : s.Orderly) {e : BlkEvent} (he : s.Patient e) : (s.step e).Orderly := by
  cases e with
  | invoke t call => exact h.invoke he t call
  | fetch => exact h.fetch
  | complete status junk => exact h.complete status junk
  | step t =>
    cases h with
    | idle hc hq =>
      have hstep : s.step (.step t) = s := by simp [VirtioBlk.step, hc]
      rw [hstep]
      exact .idle hc hq
    | busy t' c hc hs =>
      by_cases ht : t = t'
      · subst ht
        have hstep : s.step (.step t) = s.stepCaller t c := by simp [VirtioBlk.step, hc]
        rw [hstep]
        exact hs.stepCaller hc fun timeout => he c timeout (by simp [hc])
      · have hstep : s.step (.step t) = s := by simp [VirtioBlk.step, hc, only, ht]
        rw [hstep]
        exact .busy t' c hc hs

theorem Stage.done (hs : s.Stage c) (hc : s.callers = only t c) (hr : s.returns t = some true) :
    s.Done c ∧ s.blkStatus = 0 := by
  obtain ⟨call, phase, request⟩ := c
  cases phase with
  | leave => exact ⟨hs.2, by simpa [returns, hc] using hr⟩
  | _ => simp [returns, hc] at hr

theorem Orderly.sound (h : s.Orderly) : s.Sound := by
  have hdone : ∀ t c, s.callers t = some c → s.returns t = some true →
      s.Done c ∧ s.blkStatus = 0 := by
    intro t c hc hr
    cases h with
    | idle hc' hq => simp [hc'] at hc
    | busy t' c' hc' hs =>
      rw [hc'] at hc
      obtain ⟨rfl, rfl⟩ := eq_of_only hc
      exact hs.done hc' hr
  refine ⟨?_, ?_, ?_, ?_⟩
  · intro t c hc hr
    obtain ⟨hd, hz⟩ := hdone t c hc hr
    rw [← hz]
    exact hd.completion
  · intro t c hc hr hw
    obtain ⟨hd, hz⟩ := hdone t c hc hr
    exact hd.read hz hw
  · intro t c hc hr hw
    obtain ⟨hd, hz⟩ := hdone t c hc hr
    exact hd.written hz hw
  · intro f hf hty
    cases h with
    | idle hc hq => simp [hq.1.pending] at hf
    | busy t c hc hs =>
      by_cases hp : ∃ timeout, c.phase = .poll timeout
      · obtain ⟨timeout, hp⟩ := hp
        simp only [Stage, hp] at hs
        cases hs with
        | published h1 => simp [h1] at hf
        | fetched h1 =>
          simp only [h1, head?_cons, Option.mem_some_iff] at hf
          subst hf
          refine ⟨t, c, by simp [hc], ?_, rfl⟩
          by_contra hw
          simp only [BlkCaller.chain, BlkCall.header, if_pos (Bool.of_not_eq_false hw)] at hty
          exact absurd hty (by decide)
        | completed h1 => simp [h1.pending] at hf
      · simp [(hs.settled (by simpa using hp)).pending] at hf

/-- In every run from the initial state whose steps are all patient, every state passed through
is sound. -/
theorem patient_run_sound (s : VirtioBlk) (hs : s.Start) (es : List BlkEvent)
    (hes : Guarded step Patient s es) (n : ℕ) : (run step s (es.take n)).Sound := by
  have hstep : ∀ s e, Orderly s → Patient s e → Orderly (s.step e) := fun s e h he => h.step he
  exact (invariant_run hstep hs.orderly (hes.take n)).sound

def prompt (s : VirtioBlk) : List BlkEvent → Bool
  | [] => true
  | .invoke _ _ :: _ => false
  | .step t :: es =>
    (match s.callers t with
      | some ⟨_, .poll timeout, _⟩ => decide (timeout < pollLimit)
      | _ => true) && prompt (s.step (.step t)) es
  | e :: es => prompt (s.step e) es

theorem guarded_of_prompt {es : List BlkEvent} (h : s.prompt es = true) :
    Guarded step Patient s es := by
  induction es generalizing s with
  | nil => trivial
  | cons e es ih =>
    cases e with
    | invoke t call => simp [prompt] at h
    | fetch => exact ⟨trivial, ih h⟩
    | complete status junk => exact ⟨trivial, ih h⟩
    | step t =>
      obtain ⟨hp, hes⟩ := Bool.and_eq_true_iff.mp h
      refine ⟨?_, ih hes⟩
      rintro ⟨call, phase, request⟩ timeout hc rfl _ hle
      simp only [hc, decide_eq_true_eq] at hp
      omega

def blankDisk : VirtioBlk where
  present := true
  req := ⟨0, 0⟩
  blkStatus := 0
  dataAddr := 0
  dataFlags := 0
  lastUsedIdx := 0
  availIdx := 0
  usedIdx := 0
  taken := 0
  pending := []
  disk := fun n => if n = 7 then fun _ => 1 else fun _ => 0
  mem := fun _ _ => 0
  callers := fun _ => none
  completions := []

theorem blankDisk_start : blankDisk.Start := ⟨rfl, rfl, rfl, rfl, rfl, fun _ => rfl⟩

def readEvents (lba : UInt32) (buffer : ℕ) : List BlkEvent :=
  .invoke 0 ⟨false, lba, buffer, fun _ => 0⟩ :: replicate 6 (.step 0)

def completion : List BlkEvent := [.complete 0 (fun _ => 0), .step 0, .step 0]

def promptRead : List BlkEvent := readEvents 7 1 ++ BlkEvent.fetch :: completion

theorem promptRead_patient : Guarded step Patient blankDisk promptRead :=
  ⟨fun _ => rfl, guarded_of_prompt (by decide)⟩

theorem promptRead_sound : Guarded step Patient blankDisk promptRead ∧
    (run step blankDisk promptRead).returns 0 = some true ∧
    (run step blankDisk (promptRead.take 11)).Sound :=
  ⟨promptRead_patient, by decide,
    patient_run_sound blankDisk blankDisk_start promptRead promptRead_patient 11⟩

theorem run_polls {timeout : ℕ} (hc : s.callers t = some c) (hp : c.phase = .poll timeout)
    (hw : c.call.write = false) (hu : s.UsedUnchanged) (n : ℕ) (hn : timeout + n ≤ pollLimit) :
    run step s (replicate n (.step t)) = s.goTo t c (.poll (timeout + n)) := by
  induction n generalizing s c timeout with
  | zero =>
    have he : ({ c with phase := .poll timeout } : BlkCaller) = c := by rw [← hp]
    simp [goTo, he, ← hc]
  | succ n ih =>
    have hlt : ¬ pollLimit < timeout + 1 := by omega
    have hone : s.step (.step t) = s.goTo t c (.poll (timeout + 1)) := by
      simp [VirtioBlk.step, hc, stepCaller, hp, hu, hw, hlt]
    have hc' : (s.goTo t c (.poll (timeout + 1))).callers t =
        some { c with phase := .poll (timeout + 1) } := by simp [goTo]
    have hn' : timeout + 1 + n = timeout + (n + 1) := by omega
    rw [replicate_succ, run_cons, hone, ih hc' rfl hw hu (by omega), hn']
    simp [goTo]

def secondRead : List BlkEvent := BlkEvent.step 0 :: readEvents 7 1 ++ completion

def fetchedRead : List BlkEvent := (readEvents 5 0).concat .fetch

/-- The first read gives up after its chain was fetched. Its completion arrives while the second
read polls. -/
def lateCompletion : List BlkEvent :=
  fetchedRead ++ (replicate pollLimit (BlkEvent.step 0) ++ secondRead)

theorem late_completion_taken_for_own : blankDisk.Start ∧
    (run step blankDisk lateCompletion).returns 0 = some true ∧
    ¬ (run step blankDisk lateCompletion).Sound := by
  have hpolls : run step (run step blankDisk fetchedRead)
      (replicate pollLimit (.step 0)) = _ :=
    run_polls (c := ⟨⟨false, 5, 0, fun _ => 0⟩, .poll 0, 0⟩) rfl rfl rfl (by decide) pollLimit
      (by omega)
  have hrun := run_append step (run step blankDisk fetchedRead)
    (replicate pollLimit (.step 0)) secondRead
  rw [← run_append step blankDisk, hpolls] at hrun
  change run step blankDisk lateCompletion = _ at hrun
  rw [hrun]
  refine ⟨blankDisk_start, by decide, fun h => ?_⟩
  have hread := h.read 0 ⟨⟨false, 7, 1, fun _ => 0⟩, .leave, 1⟩ rfl (by decide) rfl
  exact absurd (congrFun hread 0) (by decide)

end SageOS.VirtioBlk
