import Hyperion.Proc.Scheduler

/-!
# The scheduler lock and the timer interrupt

The scheduler calls of `proc/scheduler.rs`, cut at every point where the lock
`SCHED` or the interrupt mask changes, on one CPU.  `IrqLock` of `sync.rs` saves the
mask, masks, and writes the saved value back when it is dropped.  A timer interrupt
may be taken wherever interrupts are unmasked; its handler runs `on_tick`, which
spins on the lock.  `SCHED` is not reentrant, so a handler that interrupts the holder
of the lock spins forever.

A context switch does not touch the mask: a thread that is switched to for the
first time starts with the mask of the thread that left, and one that left in
`yield_now` writes back the mask it saved there.

The rule that excludes the deadlock is that every acquisition outside the handler
is made with interrupts masked.  `yield_now` and the second section of
`exit_current` follow it; the others rely on their callers.
-/

namespace Hyperion.Proc

open Hyperion.Lib

/-! ## Program points -/

/-- Who called `yield_now`: a thread in its own code, or the loop of `run`. -/
inductive Caller where
  | own
  | loop
  deriving DecidableEq, Repr

/-- Where a thread is.  `saved` is the mask an `IrqLock` has put aside. -/
inductive Point where
  /-- outside the scheduler -/
  | own
  | runEnter
  | runTop
  /-- `SCHED.lock().ready.is_empty()`, before the guard is dropped -/
  | runLocked
  | runDecided (hasWork : Bool)
  | spawnEnter (name : String)
  /-- the thread is built, its tid taken -/
  | spawnBuilt (thread : Thread)
  | spawnLocked (thread : Thread)
  | snapshotEnter
  | snapshotLocked
  | yieldEnter (caller : Caller)
  | yieldSaved (caller : Caller) (saved : Bool)
  | yieldMasked (caller : Caller) (saved : Bool)
  | yieldLocked (caller : Caller) (saved : Bool)
  | yieldSwitching (caller : Caller) (saved : Bool) (next : UInt64)
  /-- about to drop the `IrqLock`, at once or after the thread is switched back to -/
  | yieldDone (caller : Caller) (saved : Bool)
  | exitEnter
  | exitLocked
  | exitMarked
  | exitSaved (saved : Bool)
  | exitMasked (saved : Bool)
  | exitRelocked (saved : Bool)
  | exitSwitching (next : UInt64)
  /-- switched away from for good -/
  | gone
  deriving DecidableEq, Repr

/-- The places that acquire `SCHED` outside the handler. -/
inductive Site where
  | run
  | spawn
  | snapshot
  | exitMark
  | yield
  | exitSwitch
  deriving DecidableEq, Repr

/-- What a thread does to the lock or to the CPU in one step. -/
inductive Action where
  | compute
  | acquire (site : Site)
  | release
  | switch (next : UInt64)
  deriving DecidableEq, Repr

/-- The second section of `exit_current`. -/
def System.leaveCurrent (s : System) : Checked System :=
  match s.sched.ready with
  | [] => .error .expectFailed
  | next :: rest =>
    .ok { s with sched.ready := rest, sched.current := some { next with state := .running } }

theorem exitCurrent_eq (s : System) : s.exitCurrent = s.markExited.leaveCurrent := rfl

/-- Where the thread goes after `yield_now`. -/
def Caller.back : Caller → Point
  | .own => .own
  | .loop => .runTop

/-- `Move s masked point action s' masked' point'`: one step of the running thread,
with what it does to the scheduler and to the mask.  An `expect` that fails has no
step. -/
inductive Move : System → Bool → Point → Action → System → Bool → Point → Prop
  -- a thread's own code, which may leave the kernel with another mask and come back
  | own {s : System} {m m' : Bool} : Move s m .own .compute s m' .own
  | callRun {s : System} {m : Bool} : Move s m .own .compute s m .runEnter
  | callSpawn {s : System} {m : Bool} (name : String) :
      Move s m .own .compute s m (.spawnEnter name)
  | callSnapshot {s : System} {m : Bool} : Move s m .own .compute s m .snapshotEnter
  | callYield {s : System} {m : Bool} : Move s m .own .compute s m (.yieldEnter .own)
  | callExit {s : System} {m : Bool} : Move s m .own .compute s m .exitEnter
  -- `run`
  | runEnable {s : System} {m : Bool} : Move s m .runEnter .compute s false .runTop
  | runLock {s : System} {m : Bool} : Move s m .runTop (.acquire .run) s m .runLocked
  | runCheck {s : System} {m : Bool} :
      Move s m .runLocked .release s m (.runDecided !s.sched.ready.isEmpty)
  | runYield {s : System} {m : Bool} :
      Move s m (.runDecided true) .compute s m (.yieldEnter .loop)
  | runIdle {s : System} {m : Bool} : Move s m (.runDecided false) .compute s m .runTop
  -- `spawn`
  | spawnBuild {s : System} {m : Bool} {name : String} :
      Move s m (.spawnEnter name) .compute (s.newThread name).2 m
        (.spawnBuilt (s.newThread name).1)
  | spawnLock {s : System} {m : Bool} {t : Thread} :
      Move s m (.spawnBuilt t) (.acquire .spawn) s m (.spawnLocked t)
  | spawnPush {s : System} {m : Bool} {t : Thread} :
      Move s m (.spawnLocked t) .release { s with sched.ready := s.sched.ready ++ [t] } m .own
  -- `snapshot`
  | snapshotLock {s : System} {m : Bool} :
      Move s m .snapshotEnter (.acquire .snapshot) s m .snapshotLocked
  | snapshotCopy {s : System} {m : Bool} : Move s m .snapshotLocked .release s m .own
  -- `yield_now`
  | yieldSave {s : System} {m : Bool} {caller : Caller} :
      Move s m (.yieldEnter caller) .compute s m (.yieldSaved caller m)
  | yieldMask {s : System} {m saved : Bool} {caller : Caller} :
      Move s m (.yieldSaved caller saved) .compute s true (.yieldMasked caller saved)
  | yieldLock {s : System} {m saved : Bool} {caller : Caller} :
      Move s m (.yieldMasked caller saved) (.acquire .yield) s m (.yieldLocked caller saved)
  | yieldStay {s s' : System} {m saved : Bool} {caller : Caller} (hempty : s.sched.ready = [])
      (hyield : s.yieldNow = .ok s') :
      Move s m (.yieldLocked caller saved) .release s' m (.yieldDone caller saved)
  | yieldPick {s s' : System} {m saved : Bool} {caller : Caller} {t : Thread}
      {rest : List Thread} (hready : s.sched.ready = t :: rest) (hyield : s.yieldNow = .ok s') :
      Move s m (.yieldLocked caller saved) .release s' m (.yieldSwitching caller saved t.tid)
  | yieldSwitch {s : System} {m saved : Bool} {caller : Caller} {next : UInt64} :
      Move s m (.yieldSwitching caller saved next) (.switch next) s m (.yieldDone caller saved)
  | yieldRestore {s : System} {m saved : Bool} {caller : Caller} :
      Move s m (.yieldDone caller saved) .compute s saved caller.back
  -- `exit_current`
  | exitLock {s : System} {m : Bool} :
      Move s m .exitEnter (.acquire .exitMark) s m .exitLocked
  | exitMark {s : System} {m : Bool} : Move s m .exitLocked .release s.markExited m .exitMarked
  | exitSave {s : System} {m : Bool} : Move s m .exitMarked .compute s m (.exitSaved m)
  | exitMask {s : System} {m saved : Bool} :
      Move s m (.exitSaved saved) .compute s true (.exitMasked saved)
  | exitRelock {s : System} {m saved : Bool} :
      Move s m (.exitMasked saved) (.acquire .exitSwitch) s m (.exitRelocked saved)
  | exitPick {s s' : System} {m saved : Bool} {t : Thread} {rest : List Thread}
      (hready : s.sched.ready = t :: rest) (hleave : s.leaveCurrent = .ok s') :
      Move s m (.exitRelocked saved) .release s' m (.exitSwitching t.tid)
  | exitSwitch {s : System} {m : Bool} {next : UInt64} :
      Move s m (.exitSwitching next) (.switch next) s m .gone

/-! ## The CPU -/

/-- Who holds `SCHED`. -/
inductive Holder where
  | thread (tid : UInt64)
  | handler
  deriving DecidableEq, Repr

/-- Where the handler of the timer interrupt is. -/
inductive HandlerPoint where
  /-- `on_tick`, before the lock is acquired -/
  | entered
  | locked
  | done
  deriving DecidableEq, Repr

structure Cpu where
  system : System
  masked : Bool
  holder : Option Holder
  points : UInt64 → Point
  /-- the thread whose stack the CPU is on -/
  running : UInt64
  /-- the handler, while an interrupt is being handled -/
  handler : Option HandlerPoint

namespace Cpu

/-- The CPU after `init`: interrupts are masked since the boot stub. -/
def boot (kernelPid : UInt64) : Cpu where
  system := (System.new kernelPid).init
  masked := true
  holder := none
  points := fun _ => .own
  running := bootTid
  handler := none

/-- The running thread is now at `point`. -/
def goto (cpu : Cpu) (system : System) (masked : Bool) (point : Point) : Cpu :=
  { cpu with system, masked, points := Function.update cpu.points cpu.running point }

end Cpu

inductive CpuEvent where
  | thread (action : Action)
  /-- the timer interrupt is taken -/
  | interrupt
  /-- `on_tick` acquires the lock -/
  | tick
  /-- `on_tick` releases it -/
  | ticked
  /-- the handler returns to the interrupted thread -/
  | resume
  deriving DecidableEq, Repr

/-- While a handler is active the interrupted thread stands still.  Taking an
interrupt masks further ones until the handler returns. -/
inductive CpuStep : Cpu → CpuEvent → Cpu → Prop
  | compute {cpu : Cpu} {s : System} {m : Bool} {point : Point} (hidle : cpu.handler = none)
      (move : Move cpu.system cpu.masked (cpu.points cpu.running) .compute s m point) :
      CpuStep cpu (.thread .compute) (cpu.goto s m point)
  | acquire {cpu : Cpu} {s : System} {m : Bool} {point : Point} {site : Site}
      (hidle : cpu.handler = none) (hfree : cpu.holder = none)
      (move : Move cpu.system cpu.masked (cpu.points cpu.running) (.acquire site) s m point) :
      CpuStep cpu (.thread (.acquire site))
        { cpu.goto s m point with holder := some (.thread cpu.running) }
  | release {cpu : Cpu} {s : System} {m : Bool} {point : Point} (hidle : cpu.handler = none)
      (move : Move cpu.system cpu.masked (cpu.points cpu.running) .release s m point) :
      CpuStep cpu (.thread .release) { cpu.goto s m point with holder := none }
  | switch {cpu : Cpu} {s : System} {m : Bool} {point : Point} {next : UInt64}
      (hidle : cpu.handler = none)
      (move : Move cpu.system cpu.masked (cpu.points cpu.running) (.switch next) s m point) :
      CpuStep cpu (.thread (.switch next)) { cpu.goto s m point with running := next }
  | interrupt {cpu : Cpu} (hidle : cpu.handler = none) (hmask : cpu.masked = false) :
      CpuStep cpu .interrupt { cpu with handler := some .entered, masked := true }
  | tick {cpu : Cpu} (hpoint : cpu.handler = some .entered) (hfree : cpu.holder = none) :
      CpuStep cpu .tick { cpu with handler := some .locked, holder := some .handler }
  | ticked {cpu : Cpu} (hpoint : cpu.handler = some .locked) :
      CpuStep cpu .ticked
        { cpu with handler := some .done, holder := none, system := cpu.system.onTick }
  | resume {cpu : Cpu} (hpoint : cpu.handler = some .done) :
      CpuStep cpu .resume { cpu with handler := none, masked := false }

/-- `on_tick` tries to acquire `SCHED` while the interrupted thread holds it. -/
def Deadlocked (cpu : Cpu) : Prop :=
  cpu.handler = some .entered ∧ cpu.holder = some (.thread cpu.running)

/-- Where `run`, `spawn`, `snapshot` or the first section of `exit_current` acquires
`SCHED`, interrupts are masked. -/
def Guarded (cpu : Cpu) : CpuEvent → Prop
  | .thread (.acquire .run) | .thread (.acquire .spawn) | .thread (.acquire .snapshot)
  | .thread (.acquire .exitMark) => cpu.masked = true
  | _ => True

/-! ## The invariant -/

namespace Point

/-- The thread holds `SCHED`. -/
def Holds : Point → Prop
  | .runLocked | .spawnLocked _ | .snapshotLocked | .yieldLocked _ _ | .exitLocked
  | .exitRelocked _ => True
  | _ => False

/-- The thread has an `IrqLock` and has masked interrupts itself. -/
def Shielded : Point → Prop
  | .yieldMasked _ _ | .yieldLocked _ _ | .yieldSwitching _ _ _ | .exitMasked _ | .exitRelocked _
  | .exitSwitching _ => True
  | _ => False

end Point

/-- What holds of every state that guarded steps reach. -/
structure Undisturbed (cpu : Cpu) : Prop where
  /-- a thread that is not running neither holds the lock nor has masked interrupts -/
  parked : ∀ tid, tid ≠ cpu.running → ¬(cpu.points tid).Holds ∧ ¬(cpu.points tid).Shielded
  holder : ∀ tid, cpu.holder = some (.thread tid) → (cpu.points cpu.running).Holds
  /-- inside a section of its own, a thread cannot be interrupted -/
  shielded : (cpu.points cpu.running).Shielded → cpu.masked = true
  held : (cpu.points cpu.running).Holds → cpu.masked = true
  /-- an interrupt is only taken outside those sections -/
  interrupted : cpu.handler ≠ none →
    ¬(cpu.points cpu.running).Holds ∧ ¬(cpu.points cpu.running).Shielded

/-! ## What one step of a thread can do -/

section Move

variable {s s' : System} {m m' : Bool} {point point' : Point}

/-- A step that leaves the lock alone is taken outside the sections, and enters a
shielded one only by masking. -/
theorem Move.compute_cases (move : Move s m point .compute s' m' point') :
    ¬point.Holds ∧ ¬point'.Holds ∧ (point'.Shielded → m' = true) := by
  cases move with
  | yieldMask | exitMask => exact ⟨id, id, fun _ => rfl⟩
  | @yieldRestore _ _ caller => cases caller <;> exact ⟨id, id, False.elim⟩
  | _ => exact ⟨id, id, False.elim⟩

theorem Move.acquire_cases {site : Site} (move : Move s m point (.acquire site) s' m' point') :
    m' = m ∧ point'.Holds ∧ (site = .yield ∨ site = .exitSwitch → point.Shielded) := by
  cases move with
  | yieldLock | exitRelock => exact ⟨rfl, trivial, fun _ => trivial⟩
  | runLock | spawnLock | snapshotLock | exitLock =>
    exact ⟨rfl, trivial, fun hsite => by simp at hsite⟩

theorem Move.release_cases (move : Move s m point .release s' m' point') :
    m' = m ∧ ¬point'.Holds ∧ (point'.Shielded → point.Shielded) := by
  cases move with
  | yieldStay _ _ => exact ⟨rfl, id, False.elim⟩
  | yieldPick _ _ | exitPick _ _ => exact ⟨rfl, id, fun _ => trivial⟩
  | runCheck | spawnPush | snapshotCopy | exitMark => exact ⟨rfl, id, False.elim⟩

theorem Move.switch_cases {next : UInt64} (move : Move s m point (.switch next) s' m' point') :
    m' = m ∧ ¬point.Holds ∧ ¬point'.Holds ∧ ¬point'.Shielded := by
  cases move with
  | yieldSwitch | exitSwitch => exact ⟨rfl, id, id, id⟩

end Move

/-! ## Steps keep the invariant -/

section Steps

variable {cpu : Cpu} {s : System} {m : Bool} {point : Point}

theorem goto_running (cpu : Cpu) (s : System) (m : Bool) (point : Point) :
    (cpu.goto s m point).points cpu.running = point :=
  Function.update_self ..

theorem goto_other (cpu : Cpu) (s : System) (m : Bool) (point : Point) {tid : UInt64}
    (hne : tid ≠ cpu.running) : (cpu.goto s m point).points tid = cpu.points tid :=
  Function.update_of_ne hne ..

section

variable (undisturbed : Undisturbed cpu)

include undisturbed

theorem Undisturbed.not_held (hpoint : ¬(cpu.points cpu.running).Holds) (tid : UInt64) :
    cpu.holder ≠ some (.thread tid) :=
  fun hholder => hpoint (undisturbed.holder tid hholder)

section

variable (hidle : cpu.handler = none)

include hidle

/-- The running thread moves to a point that fits the lock and the mask. -/
theorem undisturbed_goto (s : System) {holder : Option Holder}
    (hholder : ∀ tid, holder = some (.thread tid) → point.Holds)
    (hshielded : point.Shielded → m = true) (hheld : point.Holds → m = true) :
    Undisturbed { cpu.goto s m point with holder } := by
  have hrunning := goto_running cpu s m point
  constructor
  case parked =>
    intro tid hne
    have hother := goto_other cpu s m point hne
    simp only [hother]
    exact undisturbed.parked tid hne
  case holder =>
    intro tid hthread
    show ((cpu.goto s m point).points cpu.running).Holds
    rw [hrunning]
    exact hholder tid hthread
  case shielded =>
    intro hpoint
    exact hshielded (hrunning ▸ hpoint)
  case held =>
    intro hpoint
    exact hheld (hrunning ▸ hpoint)
  case interrupted => exact fun hhandler => absurd hidle hhandler

theorem undisturbed_compute
    (move : Move cpu.system cpu.masked (cpu.points cpu.running) .compute s m point) :
    Undisturbed (cpu.goto s m point) := by
  obtain ⟨hbefore, hafter, hmask⟩ := move.compute_cases
  apply undisturbed_goto undisturbed hidle s
  · exact fun tid hholder => absurd hholder (undisturbed.not_held hbefore tid)
  · exact hmask
  · exact fun hholds => absurd hholds hafter

theorem undisturbed_acquire {site : Site} (hguarded : Guarded cpu (.thread (.acquire site)))
    (move : Move cpu.system cpu.masked (cpu.points cpu.running) (.acquire site) s m point) :
    Undisturbed { cpu.goto s m point with holder := some (.thread cpu.running) } := by
  obtain ⟨rfl, hafter, hsite⟩ := move.acquire_cases
  have hmask : cpu.masked = true := by
    cases site with
    | run | spawn | snapshot | exitMark => exact hguarded
    | yield => exact undisturbed.shielded (hsite (.inl rfl))
    | exitSwitch => exact undisturbed.shielded (hsite (.inr rfl))
  apply undisturbed_goto undisturbed hidle s
  · exact fun _ _ => hafter
  · exact fun _ => hmask
  · exact fun _ => hmask

theorem undisturbed_release
    (move : Move cpu.system cpu.masked (cpu.points cpu.running) .release s m point) :
    Undisturbed { cpu.goto s m point with holder := none } := by
  obtain ⟨rfl, hafter, hshield⟩ := move.release_cases
  apply undisturbed_goto undisturbed hidle s
  · exact fun _ hholder => nomatch hholder
  · exact fun hshielded => undisturbed.shielded (hshield hshielded)
  · exact fun hholds => absurd hholds hafter

/-- The thread that is switched to is parked, and so is the one that leaves. -/
theorem undisturbed_switch {next : UInt64}
    (move : Move cpu.system cpu.masked (cpu.points cpu.running) (.switch next) s m point) :
    Undisturbed { cpu.goto s m point with running := next } := by
  obtain ⟨rfl, hbefore, hholds, hshielded⟩ := move.switch_cases
  have hall : ∀ tid, ¬((cpu.goto s cpu.masked point).points tid).Holds ∧
      ¬((cpu.goto s cpu.masked point).points tid).Shielded := by
    intro tid
    by_cases htid : tid = cpu.running
    · rw [htid, goto_running]
      exact ⟨hholds, hshielded⟩
    · rw [goto_other cpu s cpu.masked point htid]
      exact undisturbed.parked tid htid
  constructor
  case parked => exact fun tid _ => hall tid
  case holder => exact fun tid hholder => absurd hholder (undisturbed.not_held hbefore tid)
  case shielded => exact fun hpoint => absurd hpoint (hall next).2
  case held => exact fun hpoint => absurd hpoint (hall next).1
  case interrupted => exact fun hhandler => absurd hidle hhandler

end

theorem undisturbed_interrupt (hmask : cpu.masked = false) :
    Undisturbed { cpu with handler := some .entered, masked := true } where
  parked := undisturbed.parked
  holder := undisturbed.holder
  shielded := fun _ => rfl
  held := fun _ => rfl
  interrupted := by
    -- unmasked, so the interrupted thread is in none of the sections
    intro _
    constructor
    · intro hholds
      cases hmask.symm.trans (undisturbed.held hholds)
    · intro hshielded
      cases hmask.symm.trans (undisturbed.shielded hshielded)

theorem undisturbed_resume (hpoint : cpu.handler = some .done) :
    Undisturbed { cpu with handler := none, masked := false } := by
  obtain ⟨hholds, hshielded⟩ := undisturbed.interrupted (by simp [hpoint])
  constructor
  case parked => exact undisturbed.parked
  case holder => exact undisturbed.holder
  case shielded => exact fun h => absurd h hshielded
  case held => exact fun h => absurd h hholds
  case interrupted => exact fun h => absurd rfl h

end

end Steps

theorem step_undisturbed {cpu next : Cpu} {event : CpuEvent} (undisturbed : Undisturbed cpu)
    (step : CpuStep cpu event next) (hguarded : Guarded cpu event) : Undisturbed next := by
  cases step with
  | compute hidle move => exact undisturbed_compute undisturbed hidle move
  | acquire hidle _ move => exact undisturbed_acquire undisturbed hidle hguarded move
  | release hidle move => exact undisturbed_release undisturbed hidle move
  | switch hidle move => exact undisturbed_switch undisturbed hidle move
  | interrupt _ hmask => exact undisturbed_interrupt undisturbed hmask
  | tick hpoint hfree =>
    obtain ⟨hparked, _, hshielded, hheld, hinterrupted⟩ := undisturbed
    refine ⟨hparked, ?_, hshielded, hheld, fun _ => hinterrupted (by simp [hpoint])⟩
    intro tid hholder
    cases hholder
  | ticked hpoint =>
    obtain ⟨hparked, _, hshielded, hheld, hinterrupted⟩ := undisturbed
    refine ⟨hparked, ?_, hshielded, hheld, fun _ => hinterrupted (by simp [hpoint])⟩
    intro tid hholder
    cases hholder
  | resume hpoint => exact undisturbed_resume undisturbed hpoint

theorem undisturbed_boot (kernelPid : UInt64) : Undisturbed (Cpu.boot kernelPid) where
  parked := fun _ _ => ⟨id, id⟩
  holder := fun _ hholder => nomatch hholder
  shielded := False.elim
  held := False.elim
  interrupted := fun hhandler => absurd rfl hhandler

theorem Undisturbed.not_deadlocked {cpu : Cpu} (undisturbed : Undisturbed cpu) :
    ¬Deadlocked cpu := by
  rintro ⟨hhandler, hholder⟩
  exact (undisturbed.interrupted (by simp [hhandler])).1 (undisturbed.holder _ hholder)

/-- An acquisition with interrupts unmasked is one interrupt away from the deadlock. -/
theorem deadlock_of_unmasked {cpu next : Cpu} {site : Site}
    (step : CpuStep cpu (.thread (.acquire site)) next) (hmask : cpu.masked = false) :
    ∃ stuck, CpuStep next .interrupt stuck ∧ Deadlocked stuck := by
  cases step with
  | acquire hidle _ move =>
    obtain ⟨rfl, _⟩ := move.acquire_cases
    exact ⟨_, .interrupt hidle hmask, rfl, rfl⟩

/-- **The handler never waits for the thread it interrupted.**  In a run in which
`run`, `spawn`, `snapshot` and the first section of `exit_current` acquire `SCHED`
with interrupts masked, no state reached is deadlocked.  Where one of them acquires
it with interrupts unmasked, the next interrupt deadlocks. -/
theorem guarded_runs_not_deadlocked (kernelPid : UInt64) :
    (∀ events cpu, Run (fun cpu event next => CpuStep cpu event next ∧ Guarded cpu event)
      (Cpu.boot kernelPid) events cpu → ¬Deadlocked cpu) ∧
    ∀ cpu event next, CpuStep cpu event next → ¬Guarded cpu event →
      ∃ stuck, CpuStep next .interrupt stuck ∧ Deadlocked stuck := by
  constructor
  · intro events cpu run
    have undisturbed : Undisturbed cpu :=
      run.invariant Undisturbed (undisturbed_boot kernelPid) fun _ _ _ undisturbed step =>
        step_undisturbed undisturbed step.1 step.2
    exact undisturbed.not_deadlocked
  · intro cpu event next step hunguarded
    have hmask : ¬cpu.masked = true := by
      intro hmask
      apply hunguarded
      unfold Guarded
      split
      all_goals first | exact hmask | trivial
    cases step with
    | acquire hidle hfree move =>
      exact deadlock_of_unmasked (.acquire hidle hfree move) (Bool.eq_false_iff.mpr hmask)
    | _ => exact absurd trivial hunguarded

/-- A snapshot with interrupts masked, and an interrupt on the way into `run`. -/
theorem guarded_runs_not_deadlocked_snapshot :
    ∃ events cpu, Run (fun cpu event next => CpuStep cpu event next ∧ Guarded cpu event)
      (Cpu.boot 1) events cpu ∧ cpu.handler = some .entered ∧ ¬Deadlocked cpu := by
  let sys := (Cpu.boot 1).system
  let cpu₁ := (Cpu.boot 1).goto sys true .snapshotEnter
  let cpu₂ : Cpu :=
    { cpu₁.goto sys true .snapshotLocked with holder := some (.thread bootTid) }
  let cpu₃ : Cpu := { cpu₂.goto sys true .own with holder := none }
  let cpu₄ := cpu₃.goto sys true .runEnter
  let cpu₅ := cpu₄.goto sys false .runTop
  have hcall : CpuStep (Cpu.boot 1) (.thread .compute) cpu₁ := .compute rfl .callSnapshot
  have hlock : CpuStep cpu₁ (.thread (.acquire .snapshot)) cpu₂ := .acquire rfl rfl .snapshotLock
  have hcopy : CpuStep cpu₂ (.thread .release) cpu₃ := .release rfl .snapshotCopy
  have hrun : CpuStep cpu₃ (.thread .compute) cpu₄ := .compute rfl .callRun
  have henable : CpuStep cpu₄ (.thread .compute) cpu₅ := .compute rfl .runEnable
  have hinterrupt : CpuStep cpu₅ .interrupt _ := .interrupt rfl rfl
  have run : Run (fun cpu event next => CpuStep cpu event next ∧ Guarded cpu event)
      (Cpu.boot 1) _ _ :=
    (((((Run.nil.snoc ⟨hcall, trivial⟩).snoc ⟨hlock, rfl⟩).snoc ⟨hcopy, trivial⟩).snoc
      ⟨hrun, trivial⟩).snoc ⟨henable, trivial⟩).snoc ⟨hinterrupt, trivial⟩
  exact ⟨_, _, run, rfl, (guarded_runs_not_deadlocked 1).1 _ _ run⟩

/-- The loop of `run` unmasks interrupts and then looks at the ready queue. -/
theorem run_deadlocks :
    ∃ events cpu, Run CpuStep (Cpu.boot 1) events cpu ∧ Deadlocked cpu := by
  let cpu₁ := (Cpu.boot 1).goto (Cpu.boot 1).system true .runEnter
  let cpu₂ := cpu₁.goto cpu₁.system false .runTop
  let cpu₃ : Cpu :=
    { cpu₂.goto cpu₂.system false .runLocked with holder := some (.thread bootTid) }
  have hcall : CpuStep (Cpu.boot 1) (.thread .compute) cpu₁ := .compute rfl .callRun
  have henable : CpuStep cpu₁ (.thread .compute) cpu₂ := .compute rfl .runEnable
  have hlock : CpuStep cpu₂ (.thread (.acquire .run)) cpu₃ := .acquire rfl rfl .runLock
  obtain ⟨stuck, hinterrupt, hdeadlock⟩ := deadlock_of_unmasked hlock rfl
  exact ⟨_, stuck, (((Run.nil.snoc hcall).snoc henable).snoc hlock).snoc hinterrupt, hdeadlock⟩

end Hyperion.Proc
