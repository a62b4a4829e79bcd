import Hyperion.Lib.Transition

/-!
# Message ports

`ipc/port.rs`: a bounded queue of fixed-size messages with a closed flag, both
behind one mutex.  Each call takes the mutex once, so an interleaving of calls by
any number of threads is a sequence of the atomic steps below; the client that
makes a call is part of the event and plays no role in what happens.
-/

namespace Hyperion.Ipc

/-- `PORT_CAPACITY`. -/
def portCapacity : ℕ := 32

/-- `MSG_PAYLOAD`. -/
def msgPayload : ℕ := 64

inductive PortError where
  | full
  | empty
  | closed
  deriving DecidableEq, Repr

structure Message where
  tag : UInt64
  words : Vector UInt64 8
  payload : Vector UInt8 msgPayload
  payloadLen : UInt8
  deriving DecidableEq

/-- `Message::new`. -/
def Message.new (tag : UInt64) : Message where
  tag := tag
  words := Vector.replicate 8 0
  payload := Vector.replicate msgPayload 0
  payloadLen := 0

/-- The part of a port behind the mutex. -/
structure Inner where
  queue : List Message
  closed : Bool
  deriving DecidableEq

structure Port where
  id : UInt64
  name : String
  inner : Inner
  deriving DecidableEq

namespace Port

/-- `Port::new`, for the identifier that `alloc_port_id` returned. -/
def new (id : UInt64) (name : String) : Port := ⟨id, name, ⟨[], false⟩⟩

/-- `try_send`. -/
def trySend (port : Port) (msg : Message) : Except PortError Unit × Port :=
  if port.inner.closed then (.error .closed, port)
  else if portCapacity ≤ port.inner.queue.length then (.error .full, port)
  else (.ok (), { port with inner.queue := port.inner.queue ++ [msg] })

/-- `try_recv`: the backlog of a closed port can still be drained. -/
def tryRecv (port : Port) : Except PortError Message × Port :=
  match port.inner.queue with
  | msg :: rest => (.ok msg, { port with inner.queue := rest })
  | [] => if port.inner.closed then (.error .closed, port) else (.error .empty, port)

/-- `close`. -/
def close (port : Port) : Port := { port with inner.closed := true }

/-- `pending`. -/
def pending (port : Port) : ℕ := port.inner.queue.length

end Port

/-! ## A port as a transition system -/

inductive Event where
  | send (client : ℕ) (msg : Message) (answer : Except PortError Unit)
  | recv (client : ℕ) (answer : Except PortError Message)
  | close (client : ℕ)

inductive Step : Port → Event → Port → Prop
  | send (port : Port) (client : ℕ) (msg : Message) :
      Step port (.send client msg (port.trySend msg).1) (port.trySend msg).2
  | recv (port : Port) (client : ℕ) : Step port (.recv client port.tryRecv.1) port.tryRecv.2
  | close (port : Port) (client : ℕ) : Step port (.close client) port.close

end Hyperion.Ipc
