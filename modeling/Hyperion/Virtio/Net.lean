import Hyperion.Lib.Memory
import Hyperion.Virtio.Rings

/-!
# Receiving frames from a network device

`drivers/virtio/net.rs`.  Every descriptor of the receive queue has a buffer of its own
for good.  `init` hands all of them to the device; `recv` pops a completion, copies the
frame out of the buffer that the completion names and hands the same descriptor to the
device again.  The free list of the queue is not used.

The lock of the queue is held for the whole of `recv`, so at most one call is between
its steps.  The device is at work all the time: a `NetSystem` is the queue with the
device at its other end, the memory that both see, and how far the call in progress has
come.
-/

namespace Hyperion.Virtio.Net

open Hyperion.Lib Virtqueue

def mtu : ℕ := 1514

/-- `size_of::<VirtioNetHdr>()`. -/
def hdrBytes : ℕ := 12

def rxBufSize : ℕ := mtu + 12

/-- `Box<[u8]>`: where a buffer is and how long it is. -/
structure RxBuf where
  addr : UInt64
  len : ℕ
  deriving DecidableEq, Repr

namespace RxBuf

/-- `&b[lo..hi]`. -/
def slice (b : RxBuf) (mem : Memory) (lo hi : ℕ) : Checked (List UInt8) :=
  if lo ≤ hi ∧ hi ≤ b.len then .ok (mem.bytesFrom (b.addr.toNat + lo) (hi - lo))
  else .error .sliceOutOfRange

end RxBuf

/-- The receiving side of the driver. -/
structure VirtioNet where
  rx : Virtqueue
  rxBufs : List RxBuf
  deriving DecidableEq, Repr

/-! ## Setting up the queue -/

/-- The descriptor of a buffer at `addr`. -/
def rxDesc (addr : UInt64) : Desc :=
  { addr, len := UInt32.ofNat rxBufSize, flags := vringDescFWrite, next := 0 }

/-- One turn of the loop that fills the table; `allocate i` is where the allocator puts
the buffer of this turn. -/
def fillRx (allocate : ℕ → UInt64) : VirtioNet × Memory → ℕ → Checked (VirtioNet × Memory)
  | (net, mem), i => do
      let addr := allocate i
      let mem := mem.store addr.toNat (List.replicate rxBufSize 0)
      let desc ← setIndex net.rx.desc i (rxDesc addr)
      pure (⟨{ net.rx with desc }, net.rxBufs ++ [⟨addr, rxBufSize⟩]⟩, mem)

/-- The part of `init` for the receive queue. -/
def initRx (size : UInt16) (allocate : ℕ → UInt64) (mem : Memory) :
    Checked (VirtioNet × Memory) := do
  let rx ← Virtqueue.new size
  let (net, mem) ← (List.range size.toNat).foldlM (fillRx allocate) (⟨rx, []⟩, mem)
  let rx := { net.rx with numFree := 0, freeHead := 0 }
  let rx ← (List.range size.toNat).foldlM (fun rx i => rx.pushAvail (UInt16.ofNat i)) rx
  pure (⟨rx, net.rxBufs⟩, mem)

/-! ## Receiving -/

/-- The call `recv(out)` has returned `Some(n)` and left `filled` in the caller's buffer. -/
structure Answer where
  out : List UInt8
  n : ℕ
  filled : List UInt8
  deriving DecidableEq, Repr

/-- `recv` from the popped completion up to the copy into the caller's buffer. -/
def copyOut (rxBufs : List RxBuf) (mem : Memory) (id len : UInt32) (out : List UInt8) :
    Checked (UInt16 × Answer) := do
  let head := id.toUInt16
  let b ← index rxBufs head.toNat
  -- `saturating_sub` and `min`
  let n := min (len.toNat - hdrBytes) out.length
  let stop ← addUsize hdrBytes n
  let bytes ← b.slice mem hdrBytes stop
  let filled ← copyFromSlice out 0 n bytes
  pure (head, ⟨out, n, filled⟩)

/-- The rest of `recv`: the descriptor goes back to the device. -/
def refill (q : Virtqueue) (rxBufs : List RxBuf) (head : UInt16) : Checked Virtqueue := do
  let b ← index rxBufs head.toNat
  let q ← q.fillDesc head b.addr (UInt32.ofNat rxBufSize) vringDescFWrite
  q.pushAvail head

/-- `VirtioNet::recv`. -/
def recv (net : VirtioNet) (mem : Memory) (out : List UInt8) :
    Checked (Option Answer × VirtioNet) := do
  match ← net.rx.popUsed with
  | (none, q) => pure (none, { net with rx := q })
  | (some (id, len), q) =>
    let (head, answer) ← copyOut net.rxBufs mem id len out
    let q ← refill q net.rxBufs head
    pure (some answer, { net with rx := q })

/-! ## Driver and device -/

/-- How far the call of `recv` in progress has come. -/
inductive Receiving where
  | popped (id len : UInt32) (out : List UInt8)
  | copied (head : UInt16) (answer : Answer)
  deriving DecidableEq, Repr

structure NetSystem where
  rings : Rings
  rxBufs : List RxBuf
  mem : Memory
  receiving : Option Receiving := none

/-- A frame that the device has delivered, with the whole buffer as it was then. -/
structure Completion where
  head : UInt16
  len : UInt32
  contents : List UInt8
  deriving DecidableEq, Repr

/-- The element of the used ring. -/
def Completion.elem (c : Completion) : UInt32 × UInt32 := (c.head.toUInt32, c.len)

inductive NetEvent where
  /-- `recv` finds nothing. -/
  | empty
  | pop (elem : UInt32 × UInt32)
  | copy
  /-- `recv` refills the descriptor and returns. -/
  | recv (head : UInt16) (answer : Answer)
  | fetch (head : UInt16)
  /-- The device writes into a buffer. -/
  | dma (head : UInt16) (off : ℕ) (bytes : List UInt8)
  | complete (c : Completion)
  | publish (elem : UInt32 × UInt32)
  deriving DecidableEq, Repr

/-- The steps of `recv`, interleaved with a conforming device: it writes within the
buffers of the descriptors that it has fetched, and it completes each of them once, with
the length of a frame and its header. -/
inductive NetStep : NetSystem → NetEvent → NetSystem → Prop
  | empty {s : NetSystem} {q : Virtqueue} (hidle : s.receiving = none)
      (hpop : s.rings.queue.popUsed = .ok (none, q)) :
      NetStep s .empty { s with rings := { s.rings with queue := q } }
  | pop {s : NetSystem} {q : Virtqueue} {id len : UInt32} (out : List UInt8)
      (hidle : s.receiving = none) (hpop : s.rings.queue.popUsed = .ok (some (id, len), q)) :
      NetStep s (.pop (id, len))
        { s with rings := { s.rings with queue := q }, receiving := some (.popped id len out) }
  | copy {s : NetSystem} {id len : UInt32} {out : List UInt8} {head : UInt16} {answer : Answer}
      (hpopped : s.receiving = some (.popped id len out))
      (hcopy : copyOut s.rxBufs s.mem id len out = .ok (head, answer)) :
      NetStep s .copy { s with receiving := some (.copied head answer) }
  | recv {s : NetSystem} {head : UInt16} {answer : Answer} {q : Virtqueue}
      (hcopied : s.receiving = some (.copied head answer))
      (hrefill : refill s.rings.queue s.rxBufs head = .ok q) :
      NetStep s (.recv head answer)
        { s with rings := { s.rings with queue := q }, receiving := none }
  | fetch {s : NetSystem} {rings : Rings} {head : UInt16}
      (hfetch : s.rings.fetch = .ok (some head, rings)) :
      NetStep s (.fetch head) { s with rings }
  | dma {s : NetSystem} {head : UInt16} {off : ℕ} {bytes : List UInt8} {d : Desc}
      (hhead : head ∈ s.rings.inFlight) (hdesc : s.rings.queue.desc[head.toNat]? = some d)
      (hinside : off + bytes.length ≤ d.len.toNat) :
      NetStep s (.dma head off bytes) { s with mem := s.mem.store (d.addr.toNat + off) bytes }
  | complete {s : NetSystem} {rings : Rings} {head : UInt16} {len : UInt32} {d : Desc}
      (hhead : head ∈ s.rings.inFlight) (hdesc : s.rings.queue.desc[head.toNat]? = some d)
      (hwriting : s.rings.pending = none) (hheader : hdrBytes ≤ len.toNat)
      (hframe : len.toNat ≤ rxBufSize) (hwrite : s.rings.writeUsed head len = .ok rings) :
      NetStep s (.complete ⟨head, len, s.mem.bytesFrom d.addr.toNat d.len.toNat⟩) { s with rings }
  | publish {s : NetSystem} {rings : Rings} {elem : UInt32 × UInt32}
      (hpending : s.rings.pending = some elem) (hpublish : s.rings.publish = .ok rings) :
      NetStep s (.publish elem) { s with rings }

/-- What `init` leaves behind when the device starts. -/
def NetSystem.new (net : VirtioNet) (mem : Memory) : NetSystem where
  rings := { queue := net.rx }
  rxBufs := net.rxBufs
  mem

/-- A call that nothing comes between is steps of the system. -/
theorem run_of_recv {s : NetSystem} (hidle : s.receiving = none) {out : List UInt8}
    {answer : Answer} {net : VirtioNet}
    (hrecv : recv ⟨s.rings.queue, s.rxBufs⟩ s.mem out = .ok (some answer, net)) :
    ∃ elem head, Run NetStep s [.pop elem, .copy, .recv head answer]
      { s with rings := { s.rings with queue := net.rx }, receiving := none } := by
  obtain ⟨⟨popped, q⟩, hpop, hrest⟩ := bind_eq_ok.mp hrecv
  cases popped with
  | none => cases hrest
  | some elem =>
    obtain ⟨id, len⟩ := elem
    obtain ⟨⟨head, copied⟩, hcopy, hrest⟩ := bind_eq_ok.mp hrest
    obtain ⟨q', hrefill, hrest⟩ := bind_eq_ok.mp hrest
    cases hrest
    let middle : NetSystem := { s with
      rings := { s.rings with queue := q }, receiving := some (.popped id len out) }
    have hcopied : NetStep middle .copy { middle with receiving := some (.copied head answer) } :=
      .copy rfl hcopy
    exact ⟨_, _, ((Run.nil.snoc (.pop out hidle hpop)).snoc hcopied).snoc (.recv rfl hrefill)⟩

/-! ## Histories -/

namespace NetEvent

/-- The event as the rings see it. -/
def toRing : NetEvent → List RingEvent
  | .empty => [.pop none]
  | .pop elem => [.pop (some elem)]
  | .recv head _ => [.push head]
  | .fetch head => [.fetch head]
  | .complete c => [.write c.head c.len]
  | .publish elem => [.publish elem]
  | .copy | .dma _ _ _ => []

def completion : NetEvent → List Completion
  | .complete c => [c]
  | _ => []

def answer : NetEvent → List Answer
  | .recv _ answer => [answer]
  | _ => []

end NetEvent

/-- What happened on the rings: the pushes of `init`, and then the run. -/
def ringEvents (size : UInt16) (events : List NetEvent) : List RingEvent :=
  (List.range size.toNat).map (fun i => .push (UInt16.ofNat i)) ++ events.flatMap NetEvent.toRing

/-- The frames that the device delivered, oldest first. -/
def completions (events : List NetEvent) : List Completion := events.flatMap NetEvent.completion

/-- What the calls of `recv` returned, oldest first. -/
def answers (events : List NetEvent) : List Answer := events.flatMap NetEvent.answer

section Snoc

variable (size : UInt16) (events : List NetEvent) (event : NetEvent)

theorem ringEvents_snoc :
    ringEvents size (events ++ [event]) = ringEvents size events ++ event.toRing := by
  simp [ringEvents]

theorem completions_snoc :
    completions (events ++ [event]) = completions events ++ event.completion := by
  simp [completions]

theorem answers_snoc : answers (events ++ [event]) = answers events ++ event.answer := by
  simp [answers]

end Snoc

/-! ## Where the descriptors are -/

/-- The heads in the available ring that the device has not fetched. -/
def unfetched (r : Rings) : List UInt16 :=
  ringEntries r.queue.size 2 (fun bytes => UInt16.ofNat (fromLe bytes)) r.queue.avail r.cursor

/-- The elements of the used ring that the driver has not popped. -/
def unpopped (r : Rings) : List (UInt32 × UInt32) :=
  ringEntries r.queue.size 8
    (fun bytes => (UInt32.ofNat (fromLe (bytes.take 4)), UInt32.ofNat (fromLe (bytes.drop 4))))
    r.queue.used r.queue.lastUsedIdx

/-- The descriptor that a call has popped. -/
def Receiving.head : Receiving → UInt16
  | .popped id _ _ => id.toUInt16
  | .copied head _ => head

namespace NetSystem

/-- The descriptors that the device has, fetched or not. -/
def posted (s : NetSystem) : List UInt16 := unfetched s.rings ++ s.rings.inFlight

/-- The descriptors that are completed and not popped. -/
def completed (s : NetSystem) : List UInt16 :=
  (unpopped s.rings ++ s.rings.pending.toList).map fun elem => elem.1.toUInt16

/-- The descriptor of the call in progress. -/
def held (s : NetSystem) : List UInt16 := s.receiving.toList.map Receiving.head

end NetSystem

/-- The answer of a call of `recv` that got the frame: as much of what follows the header
as there is and as fits. -/
structure Delivers (c : Completion) (answer : Answer) : Prop where
  n_eq : answer.n = min (c.len.toNat - hdrBytes) answer.out.length
  filled_eq : answer.filled = (c.contents.drop hdrBytes).take answer.n ++ answer.out.drop answer.n

end Hyperion.Virtio.Net
