import Hyperion.Lib.Checked
import Hyperion.Lib.Transition

/-!
# The round-robin scheduler

`proc/scheduler.rs` with the thread constructors of `proc/thread.rs`.  A thread is
owned either by `current` or by the ready queue, and the calls move it from one
to the other.  The saved register context and the stack of a thread are only
handed on to the context switch and are left out, as are the entry point and its
argument.

The two `expect`s are faults.  `exit_current` takes the scheduler lock twice; the
first section only marks the thread, and both are one step here.
-/

namespace Hyperion.Proc

open Hyperion.Lib

inductive ThreadState where
  | ready
  | running
  | blocked
  | exited
  deriving DecidableEq, Repr

structure Thread where
  tid : UInt64
  name : String
  state : ThreadState
  pid : UInt64
  deriving DecidableEq, Repr

/-- `Sched`, the state behind the scheduler lock. -/
structure Sched where
  current : Option Thread
  ready : List Thread
  needResched : Bool
  deriving DecidableEq, Repr

/-- The statics: the scheduler, `NEXT_TID`, and the pid that `kernel_pid` returns. -/
structure System where
  sched : Sched
  nextTid : UInt64
  kernelPid : UInt64
  deriving DecidableEq, Repr

namespace System

/-- The statics before `init`. -/
def new (kernelPid : UInt64) : System := ⟨⟨none, [], false⟩, 1, kernelPid⟩

/-- `alloc_tid`: `fetch_add(1)`, which wraps. -/
def allocTid (s : System) : UInt64 × System :=
  (s.nextTid, { s with nextTid := s.nextTid + 1 })

/-- `Thread::boot_thread`. -/
def bootThread (s : System) : Thread × System :=
  (⟨s.allocTid.1, "boot", .running, s.kernelPid⟩, s.allocTid.2)

/-- `Thread::new`. -/
def newThread (s : System) (name : String) : Thread × System :=
  (⟨s.allocTid.1, name, .ready, s.kernelPid⟩, s.allocTid.2)

/-- `init`. -/
def init (s : System) : System :=
  { s.bootThread.2 with sched.current := some s.bootThread.1 }

/-- `spawn`. -/
def spawn (s : System) (name : String) : UInt64 × System :=
  ((s.newThread name).1.tid,
    { (s.newThread name).2 with sched.ready := s.sched.ready ++ [(s.newThread name).1] })

/-- `on_tick`. -/
def onTick (s : System) : System := { s with sched.needResched := true }

/-- `yield_now`. -/
def yieldNow (s : System) : Checked System :=
  match s.sched.ready with
  | [] => .ok { s with sched.needResched := false }
  | next :: rest =>
    match s.sched.current with
    | none => .error .expectFailed
    | some current =>
      .ok { s with
        sched.needResched := false
        sched.ready := rest ++ [{ current with state := .ready }]
        sched.current := some { next with state := .running } }

/-- The first section of `exit_current`. -/
def markExited (s : System) : System :=
  { s with sched.current := s.sched.current.map fun t => { t with state := .exited } }

/-- `exit_current`. -/
def exitCurrent (s : System) : Checked System :=
  match s.markExited.sched.ready with
  | [] => .error .expectFailed
  | next :: rest =>
    .ok { s.markExited with
      sched.ready := rest
      sched.current := some { next with state := .running } }

/-- `snapshot`. -/
def snapshot (s : System) : List (UInt64 × String × ThreadState) :=
  (s.sched.current.toList ++ s.sched.ready).map fun t => (t.tid, t.name, t.state)

end System

/-! ## The scheduler as a transition system -/

/-- The tid of the boot thread: the first one `alloc_tid` hands out. -/
def bootTid : UInt64 := 1

inductive Event where
  | spawn (name : String) (tid : UInt64)
  | tick
  | yield
  | exit (tid : UInt64)
  deriving DecidableEq, Repr

/-- One scheduler call.  The boot thread runs the idle loop and never calls
`exit_current`. -/
inductive Step : System → Event → System → Prop
  | spawn (s : System) (name : String) : Step s (.spawn name (s.spawn name).1) (s.spawn name).2
  | tick (s : System) : Step s .tick s.onTick
  | yield {s s' : System} (hyield : s.yieldNow = .ok s') : Step s .yield s'
  | exit {s s' : System} {t : Thread} (hcurrent : s.sched.current = some t)
      (hboot : t.tid ≠ bootTid) (hexit : s.exitCurrent = .ok s') : Step s (.exit t.tid) s'

end Hyperion.Proc
