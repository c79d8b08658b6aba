import SageOS.GuardedRun

/-!
# The block driver

Every call of the driver fills the same request header, the same data descriptor and the same
status byte, publishes the chain and polls the used index. The callers run one store at a time,
between them the device fetches published chains and completes what it has fetched, in order and
with any status. Ring indices are counted without bound and compared by their low sixteen bits.
A buffer is one sector at its address; its content is given with the call that passes it.
-/
namespace SageOS

abbrev SectorData := Fin 512 → UInt8

def virtioBlkTIn : UInt32 := 0
def virtioBlkTOut : UInt32 := 1
def vringDescFNext : UInt16 := 1
def vringDescFWrite : UInt16 := 2

structure VirtioBlkReq where
  type : UInt32
  sector : UInt64
  deriving DecidableEq

/-- A call of `ata_read_sector` or `ata_write_sector`. -/
structure BlkCall where
  write : Bool
  lba : UInt32
  buffer : ℕ
  data : SectorData

def BlkCall.header (c : BlkCall) : VirtioBlkReq :=
  ⟨if c.write then virtioBlkTOut else virtioBlkTIn, c.lba.toUInt64⟩

def BlkCall.flags (c : BlkCall) : UInt16 :=
  if c.write then vringDescFNext else vringDescFNext ||| vringDescFWrite

/-- The next store or load of a call in progress. -/
inductive BlkPhase
  | reqType | reqSector | clearStatus | dataAddr | dataFlags | publish
  | poll (timeout : ℕ) | seen | leave
  deriving DecidableEq

structure BlkCaller where
  call : BlkCall
  phase : BlkPhase
  request : ℕ

/-- A chain as the device read it, with its position in the available ring. -/
structure BlkChain where
  request : ℕ
  req : VirtioBlkReq
  addr : ℕ
  flags : UInt16
  deriving DecidableEq

def BlkCaller.chain (c : BlkCaller) : BlkChain :=
  ⟨c.request, c.call.header, c.call.buffer, c.call.flags⟩

structure BlkCompletion where
  chain : BlkChain
  status : UInt8
  data : SectorData

structure VirtioBlk where
  present : Bool
  req : VirtioBlkReq
  blkStatus : UInt8
  dataAddr : ℕ
  dataFlags : UInt16
  lastUsedIdx : UInt16
  availIdx : ℕ
  usedIdx : ℕ
  taken : ℕ
  pending : List BlkChain
  disk : UInt64 → SectorData
  mem : ℕ → SectorData
  callers : ℕ → Option BlkCaller
  completions : List BlkCompletion

inductive BlkEvent
  | invoke (t : ℕ) (call : BlkCall)
  | step (t : ℕ)
  | fetch
  | complete (status : UInt8) (junk : SectorData)

namespace VirtioBlk

def pollLimit : ℕ := 10000000

def goTo (s : VirtioBlk) (t : ℕ) (c : BlkCaller) (phase : BlkPhase) : VirtioBlk :=
  { s with callers := Function.update s.callers t (some { c with phase := phase }) }

def leave (s : VirtioBlk) (t : ℕ) : VirtioBlk :=
  { s with callers := Function.update s.callers t none }

def invoke (s : VirtioBlk) (t : ℕ) (call : BlkCall) : VirtioBlk :=
  match s.callers t with
  | some _ => s
  | none =>
    if s.present then
      { s with
        mem := Function.update s.mem call.buffer call.data
        callers := Function.update s.callers t (some ⟨call, .reqType, 0⟩) }
    else s

def UsedUnchanged (s : VirtioBlk) : Prop := UInt16.ofNat s.usedIdx = s.lastUsedIdx

instance (s : VirtioBlk) : Decidable s.UsedUnchanged := inferInstanceAs (Decidable (_ = _))

def stepCaller (s : VirtioBlk) (t : ℕ) (c : BlkCaller) : VirtioBlk :=
  match c.phase with
  | .reqType => { s with req.type := c.call.header.type }.goTo t c .reqSector
  | .reqSector => { s with req.sector := c.call.header.sector }.goTo t c .clearStatus
  | .clearStatus => { s with blkStatus := 0xff }.goTo t c .dataAddr
  | .dataAddr => { s with dataAddr := c.call.buffer }.goTo t c .dataFlags
  | .dataFlags => { s with dataFlags := c.call.flags }.goTo t c .publish
  | .publish =>
    { s with availIdx := s.availIdx + 1 }.goTo t { c with request := s.availIdx } (.poll 0)
  | .poll timeout =>
    if s.UsedUnchanged then
      if c.call.write then s
      else if pollLimit < timeout + 1 then s.leave t
      else s.goTo t c (.poll (timeout + 1))
    else s.goTo t c .seen
  | .seen => { s with lastUsedIdx := UInt16.ofNat s.usedIdx }.goTo t c .leave
  | .leave => s.leave t

/-- What the call of `t` returns in its next step, if that step is its last. -/
def returns (s : VirtioBlk) (t : ℕ) : Option Bool :=
  match s.callers t with
  | none => none
  | some c =>
    match c.phase with
    | .poll timeout =>
      if s.UsedUnchanged ∧ c.call.write = false ∧ pollLimit < timeout + 1 then some false else none
    | .leave => some (s.blkStatus == 0)
    | _ => none

def fetch (s : VirtioBlk) : VirtioBlk :=
  if UInt16.ofNat s.taken = UInt16.ofNat s.availIdx then s
  else
    { s with
      taken := s.taken + 1
      pending := s.pending ++ [⟨s.taken, s.req, s.dataAddr, s.dataFlags⟩] }

/-- The transfer of a chain. A chain whose descriptor does not fit its type fails. A failed
transfer leaves anything in its target. -/
def transfer (s : VirtioBlk) (f : BlkChain) (status : UInt8) (junk : SectorData) :
    VirtioBlk × BlkCompletion :=
  if f.req.type = virtioBlkTIn ∧ f.flags &&& vringDescFWrite = vringDescFWrite then
    let data := if status = 0 then s.disk f.req.sector else junk
    ({ s with mem := Function.update s.mem f.addr data, blkStatus := status }, ⟨f, status, data⟩)
  else if f.req.type = virtioBlkTOut ∧ f.flags &&& vringDescFWrite = 0 then
    let data := if status = 0 then s.mem f.addr else junk
    ({ s with disk := Function.update s.disk f.req.sector data, blkStatus := status },
      ⟨f, status, data⟩)
  else ({ s with blkStatus := 1 }, ⟨f, 1, junk⟩)

def complete (s : VirtioBlk) (status : UInt8) (junk : SectorData) : VirtioBlk :=
  match s.pending with
  | [] => s
  | f :: fs =>
    let r := s.transfer f status junk
    { r.1 with
      pending := fs
      usedIdx := s.usedIdx + 1
      completions := r.2 :: s.completions }

def step (s : VirtioBlk) : BlkEvent → VirtioBlk
  | .invoke t call => s.invoke t call
  | .step t =>
    match s.callers t with
    | none => s
    | some c => s.stepCaller t c
  | .fetch => s.fetch
  | .complete status junk => s.complete status junk

/-- The state after `ata_init` found a device: nothing published, nothing in flight. -/
structure Start (s : VirtioBlk) : Prop where
  avail : s.availIdx = 0
  used : s.usedIdx = 0
  taken : s.taken = 0
  last : s.lastUsedIdx = 0
  pending : s.pending = []
  callers : ∀ t, s.callers t = none

/-- A call that is about to return 1 has had its own request completed, and the device writes
only into the buffer of a read that is still in progress. -/
structure Sound (s : VirtioBlk) : Prop where
  completed : ∀ t c, s.callers t = some c → s.returns t = some true →
    ∃ d ∈ s.completions, d.chain = c.chain ∧ d.status = 0
  read : ∀ t c, s.callers t = some c → s.returns t = some true → c.call.write = false →
    s.mem c.call.buffer = s.disk c.call.lba.toUInt64
  written : ∀ t c, s.callers t = some c → s.returns t = some true → c.call.write = true →
    s.disk c.call.lba.toUInt64 = c.call.data
  target : ∀ f ∈ s.pending.head?, f.req.type = virtioBlkTIn →
    ∃ t c, s.callers t = some c ∧ c.call.write = false ∧ c.call.buffer = f.addr

end VirtioBlk
end SageOS
