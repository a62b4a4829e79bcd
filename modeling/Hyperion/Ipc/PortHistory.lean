import Hyperion.Ipc.Port

/-!
# A port neither loses, duplicates nor reorders messages

Everything follows from one equation between the history and the queue,

```text
accepted = received ++ queue
```

which each call keeps (`step_history`).  The received messages are therefore a
prefix of the accepted ones and the queue is the difference.  Closing only stops
`try_send`; that the backlog of a closed port is still delivered is
`backlog_prefix_received`, which counts the calls of `try_recv` made afterwards.
-/

namespace Hyperion.Ipc

open Hyperion.Lib

/-- The message an event added to the queue. -/
def Event.accepted : Event → List Message
  | .send _ msg (.ok ()) => [msg]
  | _ => []

/-- The message an event took from the queue. -/
def Event.received : Event → List Message
  | .recv _ (.ok msg) => [msg]
  | _ => []

def Event.isRecv : Event → Bool
  | .recv _ _ => true
  | _ => false

def Event.isClose : Event → Bool
  | .close _ => true
  | _ => false

/-- The messages accepted by successful `try_send` calls, oldest first. -/
def accepted (events : List Event) : List Message := events.flatMap Event.accepted

/-- The messages returned by successful `try_recv` calls, oldest first. -/
def received (events : List Event) : List Message := events.flatMap Event.received

/-- How often `try_recv` was called, successfully or not. -/
def recvCalls (events : List Event) : ℕ := events.countP Event.isRecv

@[simp] theorem accepted_snoc (events : List Event) (event : Event) :
    accepted (events ++ [event]) = accepted events ++ event.accepted := by
  simp [accepted]

@[simp] theorem received_snoc (events : List Event) (event : Event) :
    received (events ++ [event]) = received events ++ event.received := by
  simp [received]

@[simp] theorem recvCalls_snoc (events : List Event) (event : Event) :
    recvCalls (events ++ [event]) = recvCalls events + if event.isRecv then 1 else 0 := by
  simp [recvCalls, List.countP_cons]

/-! ## One call -/

theorem trySend_cases (port : Port) (msg : Message) :
    (port.inner.closed = true ∧ port.trySend msg = (.error .closed, port)) ∨
      (port.inner.closed = false ∧ portCapacity ≤ port.inner.queue.length ∧
        port.trySend msg = (.error .full, port)) ∨
      (port.inner.closed = false ∧ port.inner.queue.length < portCapacity ∧
        port.trySend msg =
          (.ok (), { port with inner.queue := port.inner.queue ++ [msg] })) := by
  unfold Port.trySend
  cases hclosed : port.inner.closed with
  | true => simp
  | false =>
    by_cases hfull : portCapacity ≤ port.inner.queue.length
    · simp [hfull]
    · simp [hfull, not_le.mp hfull]

theorem tryRecv_cases (port : Port) :
    (∃ msg rest, port.inner.queue = msg :: rest ∧
        port.tryRecv = (.ok msg, { port with inner.queue := rest })) ∨
      (port.inner.queue = [] ∧ port.inner.closed = true ∧
        port.tryRecv = (.error .closed, port)) ∨
      (port.inner.queue = [] ∧ port.inner.closed = false ∧
        port.tryRecv = (.error .empty, port)) := by
  unfold Port.tryRecv
  cases hqueue : port.inner.queue with
  | cons msg rest => exact .inl ⟨msg, rest, rfl, rfl⟩
  | nil =>
    cases hclosed : port.inner.closed with
    | true => simp
    | false => simp

/-! ## The history invariant -/

/-- What the calls made so far say about the port. -/
structure History (events : List Event) (port : Port) : Prop where
  queue_eq : accepted events = received events ++ port.inner.queue
  length_le : port.inner.queue.length ≤ portCapacity
  closed_iff : port.inner.closed = true ↔ ∃ event ∈ events, event.isClose = true

theorem history_new (id : UInt64) (name : String) : History [] (Port.new id name) :=
  ⟨rfl, Nat.zero_le _, by simp [Port.new]⟩

/-- A call that fails is only recorded. -/
theorem History.failed {events : List Event} {port : Port} (hist : History events port)
    {event : Event} (haccepted : event.accepted = []) (hreceived : event.received = [])
    (hclose : event.isClose = false) : History (events ++ [event]) port :=
  ⟨by simpa [haccepted, hreceived] using hist.queue_eq, hist.length_le,
    by simpa [hclose] using hist.closed_iff⟩

theorem step_history (events : List Event) (port : Port) (event : Event) (next : Port)
    (hist : History events port) (step : Step port event next) :
    History (events ++ [event]) next := by
  have hqueue := hist.queue_eq
  have hclosed := hist.closed_iff
  cases step with
  | send client msg =>
    rcases trySend_cases port msg with ⟨_, heq⟩ | ⟨_, _, heq⟩ | ⟨_, hroom, heq⟩
    · rw [heq]
      exact hist.failed rfl rfl rfl
    · rw [heq]
      exact hist.failed rfl rfl rfl
    · rw [heq]
      refine ⟨?_, by simpa using hroom, by simpa [Event.isClose] using hclosed⟩
      simp [hqueue, Event.accepted, Event.received]
  | recv client =>
    rcases tryRecv_cases port with ⟨msg, rest, hcons, heq⟩ | ⟨_, _, heq⟩ | ⟨_, _, heq⟩
    · rw [heq]
      have hlength := hist.length_le
      rw [hcons, List.length_cons] at hlength
      refine ⟨?_, Nat.le_of_succ_le hlength, by simpa [Event.isClose] using hclosed⟩
      simp [hqueue, hcons, Event.accepted, Event.received]
    · rw [heq]
      exact hist.failed rfl rfl rfl
    · rw [heq]
      exact hist.failed rfl rfl rfl
  | close client =>
    refine ⟨?_, hist.length_le, by simp [Event.isClose, Port.close]⟩
    simpa [Event.accepted, Event.received, Port.close] using hqueue

theorem run_history {id : UInt64} {name : String} {events : List Event} {port : Port}
    (run : Run Step (Port.new id name) events port) : History events port :=
  run.history_invariant History (history_new id name) step_history

/-! ## After a given state -/

/-- What the calls made after a state with queue `backlog` say about the port. -/
structure Drained (backlog : List Message) (later : List Event) (port : Port) : Prop where
  queue_eq : backlog ++ accepted later = received later ++ port.inner.queue
  length_le : min backlog.length (recvCalls later) ≤ (received later).length

theorem step_drained (backlog : List Message) (later : List Event) (port : Port) (event : Event)
    (next : Port) (hdrained : Drained backlog later port) (step : Step port event next) :
    Drained backlog (later ++ [event]) next := by
  have hqueue := hdrained.queue_eq
  have hlength := hdrained.length_le
  cases step with
  | send client msg =>
    rcases trySend_cases port msg with ⟨_, heq⟩ | ⟨_, _, heq⟩ | ⟨_, _, heq⟩ <;> rw [heq] <;>
      refine ⟨?_, by simpa [Event.received, Event.isRecv] using hlength⟩
    · simpa [Event.accepted, Event.received] using hqueue
    · simpa [Event.accepted, Event.received] using hqueue
    · simp [← List.append_assoc, hqueue, Event.accepted, Event.received]
  | recv client =>
    -- a failed `try_recv` means that the queue, hence the backlog, is gone
    have hempty : port.inner.queue = [] → backlog.length ≤ (received later).length := by
      intro hnil
      have := congrArg List.length hqueue
      simp only [hnil, List.length_append, List.length_nil] at this
      omega
    rcases tryRecv_cases port with ⟨msg, rest, hcons, heq⟩ | ⟨hnil, _, heq⟩ | ⟨hnil, _, heq⟩
    · rw [heq]
      refine ⟨by simp [hqueue, hcons, Event.accepted, Event.received], ?_⟩
      simp only [recvCalls_snoc, received_snoc, Event.received, Event.isRecv, List.length_append,
        List.length_singleton, if_true]
      omega
    · rw [heq]
      refine ⟨by simpa [Event.accepted, Event.received] using hqueue, ?_⟩
      have := hempty hnil
      simp only [received_snoc, Event.received, List.append_nil]
      omega
    · rw [heq]
      refine ⟨by simpa [Event.accepted, Event.received] using hqueue, ?_⟩
      have := hempty hnil
      simp only [received_snoc, Event.received, List.append_nil]
      omega
  | close client =>
    refine ⟨?_, by simpa [Event.received, Event.isRecv] using hlength⟩
    simpa [Event.accepted, Event.received, Port.close] using hqueue

/-- Once `try_recv` has been called as often as there were messages queued, all
of these have been returned, in order. -/
theorem backlog_prefix_received {port last : Port} {later : List Event}
    (run : Run Step port later last) (hcalls : port.pending ≤ recvCalls later) :
    port.inner.queue <+: received later := by
  have hdrained := run.history_invariant (Drained port.inner.queue)
    ⟨by simp [accepted, received], by simp [recvCalls]⟩ (step_drained port.inner.queue)
  have hlength : port.inner.queue.length ≤ (received later).length := by
    have := hdrained.length_le
    unfold Port.pending at hcalls
    omega
  have hall : port.inner.queue <+: received later ++ last.inner.queue := by
    rw [← hdrained.queue_eq]
    exact List.prefix_append _ _
  exact List.prefix_of_prefix_length_le hall (List.prefix_append _ _) hlength

/-- A closed port stays closed and accepts nothing more. -/
theorem accepted_of_closed {port last : Port} {later : List Event}
    (run : Run Step port later last) (hclosed : port.inner.closed = true) :
    accepted later = [] := by
  refine (run.history_invariant
    (fun events reached => accepted events = [] ∧ reached.inner.closed = true)
    ⟨rfl, hclosed⟩ ?_).1
  rintro events reached event next ⟨hnone, hstill⟩ step
  cases step with
  | send client msg =>
    have hfail : reached.trySend msg = (.error .closed, reached) := by
      simp [Port.trySend, hstill]
    rw [hfail]
    exact ⟨by simpa [Event.accepted] using hnone, hstill⟩
  | recv client =>
    refine ⟨by simpa [Event.accepted] using hnone, ?_⟩
    rcases tryRecv_cases reached with ⟨_, _, _, heq⟩ | ⟨_, _, heq⟩ | ⟨_, _, heq⟩ <;>
      rw [heq] <;> exact hstill
  | close client => exact ⟨by simpa [Event.accepted] using hnone, rfl⟩

/-! ## The port contract -/

/-- **Ports deliver what they accept, in order.**  For every interleaving of calls
on a fresh port: the received messages are a prefix of the accepted ones, what is
missing is exactly the queue, and the queue stays within the capacity.
`try_send` fails with `Closed` exactly on closed ports and with `Full` exactly on
open ports with a full queue; after a `close` nothing is accepted, while the
messages accepted before are still delivered to whoever keeps calling
`try_recv`.  `try_recv` says `Closed` only on closed and drained ports and
`Empty` only on open and empty ones, and calls that fail change nothing. -/
theorem port_contract (id : UInt64) (name : String) (events : List Event) (port : Port)
    (run : Run Step (Port.new id name) events port) :
    (received events <+: accepted events ∧
      accepted events = received events ++ port.inner.queue ∧
      port.inner.queue.length ≤ portCapacity) ∧
    (port.inner.closed = true ↔ ∃ client, .close client ∈ events) ∧
    (∀ msg, ((port.trySend msg).1 = .error .closed ↔ port.inner.closed = true) ∧
      ((port.trySend msg).1 = .error .full ↔
        port.inner.closed = false ∧ port.inner.queue.length = portCapacity) ∧
      (port.trySend msg).1 ≠ .error .empty ∧
      ∀ e, (port.trySend msg).1 = .error e → (port.trySend msg).2 = port) ∧
    (∀ before after client, events = before ++ .close client :: after → accepted after = []) ∧
    (∀ later last, Run Step port later last → port.pending ≤ recvCalls later →
      accepted events <+: received (events ++ later)) ∧
    ((port.tryRecv.1 = .error .closed ↔ port.inner.closed = true ∧ port.inner.queue = []) ∧
      (port.tryRecv.1 = .error .empty ↔ port.inner.closed = false ∧ port.inner.queue = []) ∧
      port.tryRecv.1 ≠ .error .full ∧
      ∀ e, port.tryRecv.1 = .error e → port.tryRecv.2 = port) := by
  have hist := run_history run
  have hqueue := hist.queue_eq
  have hlength := hist.length_le
  refine ⟨⟨hqueue ▸ List.prefix_append _ _, hqueue, hlength⟩, ?_, ?_, ?_, ?_, ?_⟩
  · rw [hist.closed_iff]
    constructor
    · rintro ⟨event, hmem, hclose⟩
      cases event with
      | close client => exact ⟨client, hmem⟩
      | send _ _ _ => simp [Event.isClose] at hclose
      | recv _ _ => simp [Event.isClose] at hclose
    · rintro ⟨client, hmem⟩
      exact ⟨_, hmem, rfl⟩
  · intro msg
    rcases trySend_cases port msg with ⟨hclosed, heq⟩ | ⟨hopen, hfull, heq⟩ | ⟨hopen, hroom, heq⟩
    · simp [heq, hclosed]
    · simp [heq, hopen, le_antisymm hlength hfull]
    · simp [heq, hopen, hroom.ne]
  · rintro before after client rfl
    obtain ⟨middle, _, hrest⟩ := run.split
    rw [← List.singleton_append] at hrest
    obtain ⟨closed, hclose, hafter⟩ := hrest.split
    cases hclose.step_of_singleton with
    | close => exact accepted_of_closed hafter rfl
  · intro later last hlater hcalls
    have hdelivered := backlog_prefix_received hlater hcalls
    have happend : received (events ++ later) = received events ++ received later :=
      List.flatMap_append
    rw [hqueue, happend]
    exact (List.prefix_append_right_inj _).mpr hdelivered
  · rcases tryRecv_cases port with ⟨msg, rest, hcons, heq⟩ | ⟨hnil, hclosed, heq⟩ |
      ⟨hnil, hopen, heq⟩
    · simp [heq, hcons]
    · simp [heq, hnil, hclosed]
    · simp [heq, hnil, hopen]

/-- One message sent, the port closed, a second message refused, the first one
still received. -/
theorem port_contract_close_then_drain :
    let sent := (Port.new 1 "kernel").trySend (Message.new 7)
    let refused := sent.2.close.trySend (Message.new 8)
    let drained := refused.2.tryRecv
    drained.1 = .ok (Message.new 7) ∧
      received [.send 0 (Message.new 7) sent.1, .close 1, .send 0 (Message.new 8) refused.1,
        .recv 2 drained.1] = [Message.new 7] ∧
      drained.2.tryRecv.1 = .error .closed := by
  have hrun := Run.nil.snoc (Step.send (Port.new 1 "kernel") 0 (Message.new 7))
    |>.snoc (Step.close _ 1) |>.snoc (Step.send _ 0 (Message.new 8)) |>.snoc (Step.recv _ 2)
  obtain ⟨_, _, _, _, _, hclosed, _⟩ := port_contract 1 "kernel" _ _ hrun
  exact ⟨rfl, rfl, hclosed.mpr ⟨rfl, rfl⟩⟩

end Hyperion.Ipc
