import Hyperion.Virtio.FreeList
import Hyperion.Virtio.Rings

/-!
# Concurrent requests to a block device

`drivers/virtio/blk.rs`.  `do_request` takes the lock of the queue twice: once to
allocate, fill and push a chain of three descriptors, and once more to wait for a
completion and to free the chain.  Between the two sections the lock is free, and
while the second one spins on an empty used ring the lock is held.

A `Disk` is the queue, the device at its other end, the memory the descriptors
point into, and how far each call has come.  The fields `owned`, `completed` and
`answers` are not in the code: they record which chains the device still owns,
which completions nobody has popped yet, and which status the device wrote for
whose request.
-/

namespace Hyperion.Virtio.Blk

open Hyperion.Lib Virtqueue

def virtioBlkTIn : UInt32 := 0
def virtioBlkTOut : UInt32 := 1
def virtioBlkSOk : UInt8 := 0

def sectorSize : ℕ := 512

/-- `n * SECTOR_SIZE`, which wraps in a release build. -/
def sectorBytes (n : ℕ) : ℕ := n * sectorSize % usizeBound

/-- What the descriptors of one call say: the kind of the request, the number of
sectors, and where its header, its data and its status byte are. -/
structure Request where
  ty : UInt32
  n : ℕ
  headerAddr : UInt64
  dataAddr : UInt64
  statusAddr : UInt64
  deriving DecidableEq, Repr

/-! ## The first section -/

/-- `VRING_DESC_F_NEXT`, and `VRING_DESC_F_WRITE` where the device fills the buffer. -/
def dataFlags (ty : UInt32) : UInt16 :=
  if ty = virtioBlkTIn then vringDescFNext ||| vringDescFWrite else vringDescFNext

/-- Sets up the three descriptors of the chain that starts at `head`. -/
def fillChain (q : Virtqueue) (req : Request) (head : UInt16) : Checked Virtqueue := do
  -- `size_of::<ReqHeader>()`
  let q ← q.fillDesc head req.headerAddr 16 vringDescFNext
  let idx := (← index q.desc head.toNat).next
  let q ← q.fillDesc idx req.dataAddr (UInt32.ofNat (sectorBytes req.n)) (dataFlags req.ty)
  let idx := (← index q.desc idx.toNat).next
  q.fillDesc idx req.statusAddr 1 vringDescFWrite

/-- The section up to the first `drop(q)`, `none` where the queue is full. -/
def submit (q : Virtqueue) (req : Request) : Checked (Option UInt16 × Virtqueue) := do
  match ← q.allocChain 3 with
  | (none, q) => pure (none, q)
  | (some head, q) =>
    let q ← fillChain q req head
    let q ← q.pushAvail head
    pure (some head, q)

/-! ## Calls -/

/-- How far a call of `do_request` has come. -/
inductive Point where
  | start
  | submitted (req : Request) (head : UInt16)
  /-- inside the second section, spinning in `wait_used` -/
  | waiting (req : Request) (head : UInt16)
  /-- behind the second section; `id` is what `wait_used` returned -/
  | freed (req : Request) (head : UInt16) (id : UInt32)
  /-- `status` is the byte the call examined -/
  | returned (head : UInt16) (id : UInt32) (status : UInt8)
  | full
  deriving DecidableEq, Repr

namespace Point

/-- What a call that has returned answered. -/
def result : Point → Option (Except String Unit)
  | .returned _ _ status =>
    if status = virtioBlkSOk then some (.ok ()) else some (.error "virtio-blk: device error")
  | .full => some (.error "virtio-blk: virtqueue full")
  | _ => none

/-- Where the status byte of a call is, as long as its box is allocated and the
device may know of it. -/
def box : Point → Option UInt64
  | .submitted req _ | .waiting req _ | .freed req _ _ => some req.statusAddr
  | _ => none

end Point

/-- A chain on its way through the device. -/
structure Transfer where
  caller : ℕ
  head : UInt16
  chain : List UInt16
  deriving DecidableEq, Repr

structure Disk where
  rings : Rings
  memory : UInt64 → UInt8
  calls : ℕ → Point
  /-- the call that holds the lock in its second section -/
  lock : Option ℕ
  /-- pushed, and not yet completed by the device -/
  owned : List Transfer
  /-- completed and published, and not yet popped, oldest first -/
  completed : List Transfer
  /-- the status the device wrote for the request of each call -/
  answers : ℕ → Option UInt8

namespace Disk

/-- The driver after `init`, before any request. -/
def new (q : Virtqueue) : Disk where
  rings := { queue := q }
  memory := fun _ => 0
  calls := fun _ => .start
  lock := none
  owned := []
  completed := []
  answers := fun _ => none

abbrev queue (disk : Disk) : Virtqueue := disk.rings.queue

/-- The call `caller` is now at `point`. -/
def goto (disk : Disk) (caller : ℕ) (point : Point) : Disk :=
  { disk with calls := Function.update disk.calls caller point }

/-- Where the device writes the status of the chain at `head`: the buffer of its
last descriptor, as the table has it now. -/
def statusAddr (disk : Disk) (head : UInt16) : Option UInt64 :=
  (disk.queue.chainFrom head).getLast?.bind fun i => (disk.queue.desc[i.toNat]?).map Desc.addr

/-- The device stores a status byte. -/
def store (disk : Disk) (addr : Option UInt64) (status : UInt8) : Disk :=
  match addr with
  | none => disk
  | some a => { disk with memory := Function.update disk.memory a status }

/-- The record of the transfer that a completion of `head` is for. -/
def settle (disk : Disk) (head : UInt16) (status : UInt8) : Disk :=
  match disk.owned.find? (·.head = head) with
  | none => disk
  | some t =>
    { disk with
      owned := disk.owned.erase t
      completed := disk.completed ++ [t]
      answers := Function.update disk.answers t.caller (some status) }

/-- Behind the first section. -/
def afterSubmit (disk : Disk) (caller : ℕ) (req : Request) (head : UInt16) (q : Virtqueue) :
    Disk :=
  { disk.goto caller (.submitted req head) with
    rings := { disk.rings with queue := q }
    memory := Function.update disk.memory req.statusAddr 0xff
    owned := disk.owned ++ [⟨caller, head, q.chainFrom head⟩] }

/-- Behind the second section. -/
def afterFree (disk : Disk) (caller : ℕ) (req : Request) (head : UInt16) (id : UInt32)
    (q : Virtqueue) : Disk :=
  { disk.goto caller (.freed req head id) with
    rings := { disk.rings with queue := q }
    lock := none
    completed := disk.completed.tail }

/-- The device has completed `head`. -/
def afterComplete (disk : Disk) (head : UInt16) (status : UInt8) (rings : Rings) : Disk :=
  { (disk.store (disk.statusAddr head) status).settle head status with rings }

end Disk

/-- A section of a call or a step of the device. -/
inductive Event where
  | submit (caller : ℕ)
  | full (caller : ℕ)
  | wait (caller : ℕ)
  | free (caller : ℕ)
  | examine (caller : ℕ)
  | fetch (head : UInt16)
  | complete (head : UInt16)
  deriving DecidableEq, Repr

/-- Any number of calls, interleaved with each other and with a conforming device,
which completes the heads it has fetched in any order.  It writes the status byte
before it publishes the completion. -/
inductive Step : Disk → Event → Disk → Prop
  | submit {disk : Disk} {caller : ℕ} {req : Request} {head : UInt16} {q : Virtqueue}
      (hcall : disk.calls caller = .start) (hlock : disk.lock = none)
      -- the allocator does not hand out a byte that is still in a box
      (hbox : ∀ other, (disk.calls other).box ≠ some req.statusAddr)
      (hsubmit : submit disk.queue req = .ok (some head, q)) :
      Step disk (.submit caller) (disk.afterSubmit caller req head q)
  | full {disk : Disk} {caller : ℕ} {req : Request} {q : Virtqueue}
      (hcall : disk.calls caller = .start) (hlock : disk.lock = none)
      (hsubmit : submit disk.queue req = .ok (none, q)) :
      Step disk (.full caller)
        { disk.goto caller .full with rings := { disk.rings with queue := q } }
  | wait {disk : Disk} {caller : ℕ} {req : Request} {head : UInt16}
      (hcall : disk.calls caller = .submitted req head) (hlock : disk.lock = none) :
      Step disk (.wait caller) { disk.goto caller (.waiting req head) with lock := some caller }
  | free {disk : Disk} {caller : ℕ} {req : Request} {head : UInt16} {id len : UInt32}
      {popped q : Virtqueue} (hcall : disk.calls caller = .waiting req head)
      (hpop : disk.queue.popUsed = .ok (some (id, len), popped))
      (hfree : popped.freeChain head popped.size.toNat = .ok q) :
      Step disk (.free caller) (disk.afterFree caller req head id q)
  | examine {disk : Disk} {caller : ℕ} {req : Request} {head : UInt16} {id : UInt32}
      (hcall : disk.calls caller = .freed req head id) :
      Step disk (.examine caller)
        (disk.goto caller (.returned head id (disk.memory req.statusAddr)))
  | fetch {disk : Disk} {head : UInt16} {rings : Rings}
      (hfetch : disk.rings.fetch = .ok (some head, rings)) :
      Step disk (.fetch head) { disk with rings }
  | complete {disk : Disk} {head : UInt16} {len : UInt32} {status : UInt8} {written rings : Rings}
      (hhead : head ∈ disk.rings.inFlight) (hwrite : disk.rings.writeUsed head len = .ok written)
      (hpublish : written.publish = .ok rings) :
      Step disk (.complete head) (disk.afterComplete head status rings)

/-! ## What the calls rely on -/

/-- Every call got what it waited for. -/
structure Faithful (disk : Disk) : Prop where
  /-- the completion a call popped is the one of its own chain -/
  popped_own : ∀ caller req head id, disk.calls caller = .freed req head id →
    id = head.toUInt32
  /-- the chain a call freed is one the device has completed -/
  freed_completed : ∀ caller req head id, disk.calls caller = .freed req head id →
    (disk.answers caller).isSome ∧ ∀ t ∈ disk.owned, t.caller ≠ caller
  /-- no descriptor the device owns is free -/
  free_disjoint : ∀ t ∈ disk.owned, ∀ i ∈ t.chain, i ∉ disk.queue.freeList
  /-- the byte a call examined is what the device wrote for its request -/
  status_own : ∀ caller head id status, disk.calls caller = .returned head id status →
    id = head.toUInt32 ∧ disk.answers caller = some status

end Hyperion.Virtio.Blk
