import Hyperion.Ipc.PortHistory

/-!
# Sending to a full port

`Port::send` of `ipc/port.rs`.  The comment over it says that it yields once and tries again
where the queue is full.  The code yields and returns `Full`: the message went into the failed
`try_send` by value and was dropped there, so nothing is left to try again with.

What the other threads do during the yield is any sequence of the steps of the port.  Whether
the sender notices the difference depends on what they leave behind, and so on what they did
(`resumed_full_iff`).
-/

namespace Hyperion.Ipc

open Hyperion.Lib

/-- `send`, where the port is as `resumed` when `yield_now` returns. -/
def Port.send (port : Port) (msg : Message) (resumed : Port) : Except PortError Unit × Port :=
  match port.trySend msg with
  | (.ok (), port) => (.ok (), port)
  | (.error .full, _) => (.error .full, resumed)
  | (.error e, port) => (.error e, port)

/-- The call returned `answer` and left the port as `last`, which is what a second attempt on
the port as it was after the yield would do. -/
structure TriedAgain (msg : Message) (resumed : Port) (answer : Except PortError Unit)
    (last : Port) : Prop where
  room : resumed.inner.closed = false → resumed.inner.queue.length < portCapacity →
    answer = .ok () ∧ last = { resumed with inner.queue := resumed.inner.queue ++ [msg] }
  full : answer = .error .full → portCapacity ≤ resumed.inner.queue.length
  closed : answer = .error .closed ↔ resumed.inner.closed = true

/-- The other threads leave the port as they found it: nobody closes it, and they put in as
many messages as they take out. -/
def LeftFull (events : List Event) : Prop :=
  (∀ client, .close client ∉ events) ∧ (accepted events).length = (received events).length

section Send

variable {id : UInt64} {name : String} {earlier events : List Event} {port resumed : Port}

/-- The message is lost, whatever the others do. -/
theorem send_of_full (hopen : port.inner.closed = false)
    (hfull : portCapacity ≤ port.inner.queue.length) (msg : Message) :
    port.send msg resumed = (.error .full, resumed) := by
  have htry : port.trySend msg = (.error .full, port) := by
    rw [Port.trySend, if_neg (by simp [hopen]), if_pos hfull]
  rw [Port.send, htry]

section

variable (hist : History earlier port)

include hist

/-- The history of a port goes on through the yield. -/
theorem history_of_run (run : Run Step port events resumed) :
    History (earlier ++ events) resumed := by
  refine run.history_invariant (fun events port => History (earlier ++ events) port)
    (by simpa using hist) fun events state event next ih step => ?_
  rw [← List.append_assoc]
  exact step_history _ state event next ih step

/-- The queue after some steps, counted. -/
theorem length_queue_of_run (run : Run Step port events resumed) :
    port.inner.queue.length + (accepted events).length =
      (received events).length + resumed.inner.queue.length := by
  have hbefore := congrArg List.length hist.queue_eq
  have hafter := congrArg List.length (history_of_run hist run).queue_eq
  simp only [accepted, received, List.flatMap_append, List.length_append] at hbefore hafter ⊢
  omega

theorem closed_iff_of_run (hopen : port.inner.closed = false) (run : Run Step port events resumed) :
    resumed.inner.closed = true ↔ ∃ client, .close client ∈ events := by
  have hnone : ¬∃ event ∈ earlier, event.isClose = true := by
    rw [← hist.closed_iff, hopen]
    exact Bool.false_ne_true
  rw [(history_of_run hist run).closed_iff]
  constructor
  · rintro ⟨event, hmem, hclose⟩
    rcases List.mem_append.mp hmem with hearlier | hevents
    · exact absurd ⟨event, hearlier, hclose⟩ hnone
    · cases event with
      | close client => exact ⟨client, hevents⟩
      | send client msg answer => cases hclose
      | recv client answer => cases hclose
  · rintro ⟨client, hmem⟩
    exact ⟨.close client, List.mem_append_right _ hmem, rfl⟩

/-- When the sender of a full port resumes, the port is open and full exactly if the others
left it so. -/
theorem resumed_full_iff (hopen : port.inner.closed = false)
    (hfull : portCapacity ≤ port.inner.queue.length) (run : Run Step port events resumed) :
    resumed.inner.closed = false ∧ portCapacity ≤ resumed.inner.queue.length ↔
      LeftFull events := by
  have hclosed : resumed.inner.closed = false ↔ ∀ client, .close client ∉ events := by
    rw [← Bool.not_eq_true, closed_iff_of_run hist hopen run, not_exists]
  have hqueue : portCapacity ≤ resumed.inner.queue.length ↔
      (accepted events).length = (received events).length := by
    have hcount := length_queue_of_run hist run
    have hbefore := hist.length_le
    have hafter := (history_of_run hist run).length_le
    omega
  rw [hclosed, hqueue, LeftFull]

end

/-- **`send` on a full port does what a second attempt would do** exactly where that attempt
fails as well: nobody closes the port during the yield, and nobody makes room in it. -/
theorem send_triedAgain_iff (before : Run Step (Port.new id name) earlier port)
    (hopen : port.inner.closed = false) (hfull : portCapacity ≤ port.inner.queue.length)
    (run : Run Step port events resumed) (msg : Message) :
    TriedAgain msg resumed (port.send msg resumed).1 (port.send msg resumed).2 ↔
      LeftFull events := by
  rw [send_of_full hopen hfull, ← resumed_full_iff (run_history before) hopen hfull run]
  constructor
  · intro tried
    have hnotClosed : ¬resumed.inner.closed = true := tried.closed.not.mp (by simp)
    exact ⟨by simpa using hnotClosed, tried.full rfl⟩
  · rintro ⟨hstill, hlength⟩
    exact ⟨fun _ hroom => absurd hlength hroom.not_ge, fun _ => hlength, by simp [hstill]⟩

/-- A port that has got `n` messages and given none away. -/
def filledPort (n : ℕ) : Port :=
  { Port.new 1 "kernel" with inner.queue := List.replicate n (Message.new 0) }

theorem run_filledPort {n : ℕ} (hn : n ≤ portCapacity) :
    ∃ earlier, Run Step (Port.new 1 "kernel") earlier (filledPort n) := by
  induction n with
  | zero => exact ⟨[], .nil⟩
  | succ n ih =>
    obtain ⟨earlier, run⟩ := ih (by omega)
    have hsend : (filledPort n).trySend (Message.new 0) = (.ok (), filledPort (n + 1)) := by
      have hroom : ¬portCapacity ≤ (filledPort n).inner.queue.length := by
        simp only [filledPort, List.length_replicate]
        omega
      rw [Port.trySend, if_neg (by simp [filledPort, Port.new]), if_neg hroom]
      simp [filledPort, Port.new, List.replicate_succ']
    have hstep := Step.send (filledPort n) 0 (Message.new 0)
    rw [hsend] at hstep
    exact ⟨_, run.snoc hstep⟩

/-- While the sender yields, a message is received and another one takes its place. -/
theorem send_triedAgain_iff_replaced :
    ∃ earlier, Run Step (Port.new 1 "kernel") earlier (filledPort 32) ∧
      Run Step (filledPort 32)
        [.recv 1 (.ok (Message.new 0)), .send 2 (Message.new 0) (.ok ())] (filledPort 32) ∧
      TriedAgain (Message.new 7) (filledPort 32)
        ((filledPort 32).send (Message.new 7) (filledPort 32)).1
        ((filledPort 32).send (Message.new 7) (filledPort 32)).2 := by
  obtain ⟨earlier, before⟩ := run_filledPort (le_refl portCapacity)
  have hrecv : Step (filledPort 32) (.recv 1 (.ok (Message.new 0))) (filledPort 31) := .recv _ 1
  have hsend : Step (filledPort 31) (.send 2 (Message.new 0) (.ok ())) (filledPort 32) :=
    .send _ 2 (Message.new 0)
  have run := (Run.nil.snoc hrecv).snoc hsend
  exact ⟨earlier, before, run,
    (send_triedAgain_iff before rfl (by decide) run (Message.new 7)).mpr ⟨by simp, rfl⟩⟩

/-- One message is received while the sender yields.  There is room and the port is open, and
`send` returns `Full` without having sent. -/
theorem send_drops :
    ∃ earlier, Run Step (Port.new 1 "kernel") earlier (filledPort 32) ∧
      Run Step (filledPort 32) [.recv 1 (.ok (Message.new 0))] (filledPort 31) ∧
      (filledPort 32).send (Message.new 7) (filledPort 31) = (.error .full, filledPort 31) ∧
      Message.new 7 ∉ (filledPort 31).inner.queue ∧
      ¬TriedAgain (Message.new 7) (filledPort 31)
        ((filledPort 32).send (Message.new 7) (filledPort 31)).1
        ((filledPort 32).send (Message.new 7) (filledPort 31)).2 := by
  obtain ⟨earlier, before⟩ := run_filledPort (le_refl portCapacity)
  have hrecv := Run.nil.snoc (Step.recv (filledPort 32) 1)
  have hsend : (filledPort 32).send (Message.new 7) (filledPort 31) =
      (.error .full, filledPort 31) :=
    send_of_full rfl (by decide) _
  refine ⟨earlier, before, hrecv, hsend, by simp [filledPort, Message.new], fun tried => ?_⟩
  have hok := (tried.room rfl (by decide)).1
  rw [hsend] at hok
  cases hok

end Send

end Hyperion.Ipc
