import Hyperion.Proc.Interrupts

/-!
# Which threads run with interrupts unmasked

Three things change the interrupt mask besides the timer interrupt itself: `run`
unmasks, an `IrqLock` masks when it is made and writes the saved mask back when it is
dropped.  A context switch does not.  It happens inside `yield_now` or `exit_current`,
hence with interrupts masked, and a thread that is switched to for the first time goes
from `__thread_trampoline` straight to its entry function without unmasking them.  From
then on it saves and restores the mask it started with.

So the mask is a function of the point where a thread is (`Point.mask`), and the only
thread that runs with interrupts unmasked is the one in the loop of `run`.
-/

namespace Hyperion.Proc

open Hyperion.Lib

/-- The code of a thread outside the scheduler leaves the mask alone. -/
def KeepsMask (cpu : Cpu) (event : CpuEvent) (next : Cpu) : Prop :=
  event = .thread .compute → cpu.points cpu.running = .own → next.masked = cpu.masked

/-- The mask with which `yield_now` was called. -/
def Caller.mask : Caller → Bool
  | .own => true
  | .loop => false

namespace Point

/-- In the loop of `run`, behind `enable_irqs` and outside `yield_now`. -/
def InLoop : Point → Prop
  | .runTop | .runLocked | .runDecided _ => True
  | _ => False

/-- Inside `yield_now` or `exit_current`. -/
def Switching : Point → Prop
  | .yieldEnter _ | .yieldSaved _ _ | .yieldMasked _ _ | .yieldLocked _ _ | .yieldSwitching _ _ _
  | .yieldDone _ _ | .exitEnter | .exitLocked | .exitMarked | .exitSaved _ | .exitMasked _
  | .exitRelocked _ | .exitSwitching _ | .gone => True
  | _ => False

/-- Somewhere in `run`, behind `enable_irqs`.  `run` does not return. -/
def Entered : Point → Prop
  | .runTop | .runLocked | .runDecided _ | .yieldEnter .loop | .yieldSaved .loop _
  | .yieldMasked .loop _ | .yieldLocked .loop _ | .yieldSwitching .loop _ _
  | .yieldDone .loop _ => True
  | _ => False

/-- The mask with which a thread is at a point. -/
def mask : Point → Bool
  | .runTop | .runLocked | .runDecided _ => false
  | .yieldEnter caller | .yieldSaved caller _ => caller.mask
  | _ => true

/-- The mask put aside by an `IrqLock` of `yield_now` is that of its caller. -/
def SavedOk : Point → Prop
  | .yieldSaved caller saved | .yieldMasked caller saved | .yieldLocked caller saved
  | .yieldSwitching caller saved _ | .yieldDone caller saved => saved = caller.mask
  | _ => True

theorem mask_eq_false_iff {point : Point} (hpoint : ¬point.Switching) :
    point.mask = false ↔ point.InLoop := by
  cases point with
  | runTop | runLocked | runDecided => simp [mask, InLoop]
  | own | runEnter | spawnEnter | spawnBuilt | spawnLocked | snapshotEnter | snapshotLocked =>
    simp [mask, InLoop]
  | _ => exact absurd trivial hpoint

end Point

/-- `run` has unmasked interrupts. -/
def Started (cpu : Cpu) : Prop := ∃ tid, (cpu.points tid).Entered

/-! ## One step of a thread -/

section Move

variable {s s' : System} {m m' : Bool} {point point' : Point} {action : Action}

theorem Move.mask_eq (move : Move s m point action s' m' point')
    (hswitch : ∀ next, action ≠ .switch next) (hmask : m = point.mask) (hsaved : point.SavedOk)
    (hown : point = .own → m' = m) : m' = point'.mask ∧ point'.SavedOk := by
  cases move with
  | own | callRun | callSpawn | callSnapshot | callYield | callExit =>
    exact ⟨(hown rfl).trans hmask, trivial⟩
  | runEnable => exact ⟨rfl, trivial⟩
  | yieldSave => exact ⟨hmask, hmask⟩
  | yieldMask => exact ⟨rfl, hsaved⟩
  | yieldLock => exact ⟨hmask, hsaved⟩
  | yieldStay | yieldPick => exact ⟨hmask, hsaved⟩
  | @yieldRestore _ _ caller =>
    -- the saved mask is that of the caller, to which the thread goes back
    cases caller <;> exact ⟨hsaved, trivial⟩
  | yieldSwitch | exitSwitch => exact absurd rfl (hswitch _)
  | exitMask => exact ⟨rfl, trivial⟩
  | runLock | runCheck | runYield | runIdle | spawnBuild | spawnLock | spawnPush | snapshotLock
  | snapshotCopy | exitLock | exitMark | exitSave | exitRelock | exitPick =>
    exact ⟨hmask, trivial⟩

/-- A context switch leaves a masked point for a masked point. -/
theorem Move.mask_of_switch {next : UInt64} (move : Move s m point (.switch next) s' m' point')
    (hmask : m = point.mask) (hsaved : point.SavedOk) :
    m' = true ∧ point'.mask = true ∧ point'.SavedOk := by
  cases move with
  | yieldSwitch => exact ⟨hmask, rfl, hsaved⟩
  | exitSwitch => exact ⟨hmask, rfl, trivial⟩

end Move

/-! ## The invariant -/

structure Masks (cpu : Cpu) : Prop where
  saved : ∀ tid, (cpu.points tid).SavedOk
  /-- a thread that is not running has left with interrupts masked, or has never run -/
  parked : ∀ tid, tid ≠ cpu.running → (cpu.points tid).mask = true
  running : cpu.handler = none → cpu.masked = (cpu.points cpu.running).mask
  interrupted : cpu.handler ≠ none → (cpu.points cpu.running).mask = false

theorem masks_boot (kernelPid : UInt64) : Masks (Cpu.boot kernelPid) where
  saved := fun _ => trivial
  parked := fun _ _ => rfl
  running := fun _ => rfl
  interrupted := fun hhandler => absurd rfl hhandler

section Steps

variable {cpu next : Cpu} {s : System} {m : Bool} {point : Point} {action : Action}

/-- The running thread moves on. -/
theorem masks_goto (masks : Masks cpu) (hidle : cpu.handler = none) (holder : Option Holder)
    (move : Move cpu.system cpu.masked (cpu.points cpu.running) action s m point)
    (hswitch : ∀ next, action ≠ .switch next)
    (hown : cpu.points cpu.running = .own → m = cpu.masked) :
    Masks { cpu.goto s m point with holder } := by
  obtain ⟨hmask, hsaved⟩ :=
    move.mask_eq hswitch (masks.running hidle) (masks.saved cpu.running) hown
  have hrunning := goto_running cpu s m point
  constructor
  case saved =>
    intro tid
    by_cases htid : tid = cpu.running
    · rw [htid]
      change ((cpu.goto s m point).points cpu.running).SavedOk
      rw [hrunning]
      exact hsaved
    · have hother := goto_other cpu s m point htid
      simp only [hother]
      exact masks.saved tid
  case parked =>
    intro tid htid
    have hother := goto_other cpu s m point htid
    simp only [hother]
    exact masks.parked tid htid
  case running =>
    intro _
    change m = ((cpu.goto s m point).points cpu.running).mask
    rw [hrunning]
    exact hmask
  case interrupted => exact fun hhandler => absurd hidle hhandler

/-- A lock is taken and released with the mask as it is. -/
theorem Move.keeps_mask {s' : System} {m' : Bool} {point' : Point}
    (move : Move s m point action s' m' point') (hcompute : action ≠ .compute) : m' = m := by
  cases move with
  | runLock | runCheck | spawnLock | spawnPush | snapshotLock | snapshotCopy | yieldLock | yieldStay
  | yieldPick | yieldSwitch | exitLock | exitMark | exitRelock | exitPick | exitSwitch => rfl
  | _ => exact absurd rfl hcompute

/-- Both threads of a context switch have interrupts masked. -/
theorem masks_switch (masks : Masks cpu) (hidle : cpu.handler = none) {tid : UInt64}
    (move : Move cpu.system cpu.masked (cpu.points cpu.running) (.switch tid) s m point) :
    Masks { cpu.goto s m point with running := tid } := by
  obtain ⟨hmask, hleft, hsaved⟩ :=
    move.mask_of_switch (masks.running hidle) (masks.saved cpu.running)
  have hall : ∀ other, ((cpu.goto s m point).points other).SavedOk ∧
      ((cpu.goto s m point).points other).mask = true := by
    intro other
    by_cases hother : other = cpu.running
    · rw [hother, goto_running]
      exact ⟨hsaved, hleft⟩
    · rw [goto_other cpu s m point hother]
      exact ⟨masks.saved other, masks.parked other hother⟩
  constructor
  case saved => exact fun other => (hall other).1
  case parked => exact fun other _ => (hall other).2
  case running => exact fun _ => hmask.trans (hall tid).2.symm
  case interrupted => exact fun hhandler => absurd hidle hhandler

end Steps

theorem step_masks {cpu next : Cpu} {event : CpuEvent} (masks : Masks cpu)
    (step : CpuStep cpu event next) (hkeeps : KeepsMask cpu event next) : Masks next := by
  cases step with
  | compute hidle move =>
    refine masks_goto masks hidle cpu.holder move (fun _ heq => ?_) (hkeeps rfl)
    cases heq
  | acquire hidle _ move =>
    refine masks_goto masks hidle _ move (fun _ heq => ?_) fun _ => move.keeps_mask fun heq => ?_
    · cases heq
    · cases heq
  | release hidle move =>
    refine masks_goto masks hidle _ move (fun _ heq => ?_) fun _ => move.keeps_mask fun heq => ?_
    · cases heq
    · cases heq
  | switch hidle move => exact masks_switch masks hidle move
  | interrupt hidle hmask =>
    have hrunning := (masks.running hidle).symm.trans hmask
    refine ⟨masks.saved, masks.parked, ?_, fun _ => hrunning⟩
    intro hhandler
    cases hhandler
  | tick hpoint _ | ticked hpoint =>
    have hinterrupted := masks.interrupted (by simp [hpoint])
    refine ⟨masks.saved, masks.parked, ?_, fun _ => hinterrupted⟩
    intro hhandler
    cases hhandler
  | resume hpoint =>
    have hinterrupted := masks.interrupted (by simp [hpoint])
    exact ⟨masks.saved, masks.parked, fun _ => hinterrupted.symm,
      fun hhandler => absurd rfl hhandler⟩

/-- **Only the loop of `run` runs with interrupts unmasked.**  In every state that the
scheduler reaches, a thread that executes outside `yield_now` and `exit_current` does so
with interrupts unmasked exactly when it is the one in the loop of `run`.  Every thread
that was spawned executes with interrupts masked, on its first run as well as after it
has resumed from `yield_now`. -/
theorem unmasked_iff_inLoop (kernelPid : UInt64) (events : List CpuEvent) (cpu : Cpu)
    (run : Run (fun cpu event next => CpuStep cpu event next ∧ KeepsMask cpu event next)
      (Cpu.boot kernelPid) events cpu)
    (hexecutes : cpu.handler = none) (hpoint : ¬(cpu.points cpu.running).Switching) :
    cpu.masked = false ↔ (cpu.points cpu.running).InLoop := by
  have masks : Masks cpu :=
    run.invariant Masks (masks_boot kernelPid) fun _ _ _ masks step =>
      step_masks masks step.1 step.2
  rw [masks.running hexecutes]
  exact Point.mask_eq_false_iff hpoint

/-- The boot thread enters `run`. -/
theorem unmasked_iff_inLoop_boot :
    ∃ events cpu, Run (fun cpu event next => CpuStep cpu event next ∧ KeepsMask cpu event next)
      (Cpu.boot 1) events cpu ∧ Started cpu ∧ cpu.masked = false := by
  let cpu₁ := (Cpu.boot 1).goto (Cpu.boot 1).system true .runEnter
  let cpu₂ := cpu₁.goto cpu₁.system false .runTop
  have hcall : CpuStep (Cpu.boot 1) (.thread .compute) cpu₁ := .compute rfl .callRun
  have henable : CpuStep cpu₁ (.thread .compute) cpu₂ := .compute rfl .runEnable
  have hkeeps : KeepsMask cpu₁ (.thread .compute) cpu₂ := by
    intro _ hown
    cases hown
  have run : Run (fun cpu event next => CpuStep cpu event next ∧ KeepsMask cpu event next)
      (Cpu.boot 1) _ cpu₂ :=
    (Run.nil.snoc ⟨hcall, fun _ _ => rfl⟩).snoc ⟨henable, hkeeps⟩
  refine ⟨_, cpu₂, run, ⟨bootTid, trivial⟩, ?_⟩
  exact (unmasked_iff_inLoop 1 _ _ run rfl id).mpr trivial

/-! ## Runs of the boot thread -/

/-- The boot thread is at `point`, no other thread has been switched to, and no interrupt is being
handled. -/
structure BootAt (cpu : Cpu) (s : System) (m : Bool) (holder : Option Holder) (point : Point) :
    Prop where
  idle : cpu.handler = none
  system : cpu.system = s
  masked : cpu.masked = m
  holder : cpu.holder = holder
  running : cpu.running = bootTid
  point : cpu.points bootTid = point
  others : ∀ tid ≠ bootTid, cpu.points tid = .own

/-- A run that keeps the mask gets the boot thread there. -/
def BootReaches (s : System) (m : Bool) (holder : Option Holder) (point : Point) : Prop :=
  ∃ events cpu, Run (fun cpu event next => CpuStep cpu event next ∧ KeepsMask cpu event next)
    (Cpu.boot 1) events cpu ∧ BootAt cpu s m holder point

section BootReaches

variable {s s' : System} {m m' : Bool} {holder : Option Holder} {point point' : Point}

theorem bootReaches_start : BootReaches (System.new 1).init true none .own :=
  ⟨[], _, .nil, rfl, rfl, rfl, rfl, rfl, rfl, fun _ _ => rfl⟩

/-- A step of the boot thread changes its own point only. -/
theorem points_goto_boot {cpu : Cpu} (hrunning : cpu.running = bootTid)
    (hothers : ∀ tid ≠ bootTid, cpu.points tid = .own) (s : System) (m : Bool) (point : Point) :
    (cpu.goto s m point).points bootTid = point ∧
      ∀ tid ≠ bootTid, (cpu.goto s m point).points tid = .own := by
  rw [← hrunning] at hothers ⊢
  refine ⟨goto_running cpu s m point, fun tid htid => ?_⟩
  rw [goto_other cpu s m point htid]
  exact hothers tid htid

theorem BootReaches.compute (hreached : BootReaches s m holder point)
    (move : Move s m point .compute s' m' point') (hmask : point = .own → m' = m) :
    BootReaches s' m' holder point' := by
  obtain ⟨events, cpu, run, hidle, rfl, rfl, rfl, hrunning, rfl, hothers⟩ := hreached
  obtain ⟨hpoint, hothers⟩ := points_goto_boot hrunning hothers s' m' point'
  rw [← hrunning] at move hmask
  have hstep : CpuStep cpu (.thread .compute) _ := .compute hidle move
  exact ⟨_, _, run.snoc ⟨hstep, fun _ => hmask⟩, hidle, rfl, rfl, rfl, hrunning, hpoint, hothers⟩

theorem BootReaches.acquire {site : Site} (hreached : BootReaches s m none point)
    (move : Move s m point (.acquire site) s' m' point') :
    BootReaches s' m' (some (.thread bootTid)) point' := by
  obtain ⟨events, cpu, run, hidle, rfl, rfl, hfree, hrunning, rfl, hothers⟩ := hreached
  obtain ⟨hpoint, hothers⟩ := points_goto_boot hrunning hothers s' m' point'
  have hholder : some (Holder.thread cpu.running) = some (.thread bootTid) := by rw [hrunning]
  rw [← hrunning] at move
  have hstep : CpuStep cpu (.thread (.acquire site)) _ := .acquire hidle hfree move
  refine ⟨_, _, run.snoc ⟨hstep, fun hevent => ?_⟩, hidle, rfl, rfl, hholder, hrunning, hpoint,
    hothers⟩
  cases hevent

theorem BootReaches.release (hreached : BootReaches s m holder point)
    (move : Move s m point .release s' m' point') : BootReaches s' m' none point' := by
  obtain ⟨events, cpu, run, hidle, rfl, rfl, rfl, hrunning, rfl, hothers⟩ := hreached
  obtain ⟨hpoint, hothers⟩ := points_goto_boot hrunning hothers s' m' point'
  rw [← hrunning] at move
  have hstep : CpuStep cpu (.thread .release) _ := .release hidle move
  refine ⟨_, _, run.snoc ⟨hstep, fun hevent => ?_⟩, hidle, rfl, rfl, rfl, hrunning, hpoint, hothers⟩
  cases hevent

end BootReaches

/-- A thread is spawned before `run` and switched to from its loop.  On its first run it
executes with interrupts masked. -/
theorem first_run_masked :
    ∃ events cpu, Run (fun cpu event next => CpuStep cpu event next ∧ KeepsMask cpu event next)
      (Cpu.boot 1) events cpu ∧ Started cpu ∧ cpu.handler = none ∧ cpu.running = 2 ∧
        cpu.points 2 = .own ∧ cpu.masked = true := by
  let thread : Thread := ⟨2, "shell", .ready, 1⟩
  let built : System := ((System.new 1).init.newThread "shell").2
  let queued : System := { built with sched.ready := [thread] }
  let picked : System := { queued with
    sched.current := some { thread with state := .running }
    sched.ready := [⟨1, "boot", .ready, 1⟩] }
  have hbuilt : BootReaches built true none (.spawnBuilt thread) :=
    (bootReaches_start.compute (.callSpawn "shell") fun _ => rfl).compute .spawnBuild fun _ => rfl
  have hspawned : BootReaches queued true none .own :=
    (hbuilt.acquire .spawnLock).release .spawnPush
  have hentered : BootReaches queued false none .runTop :=
    (hspawned.compute .callRun fun _ => rfl).compute .runEnable (by decide)
  have hdecided : BootReaches queued false none (.runDecided true) :=
    (hentered.acquire .runLock).release .runCheck
  have hsaved : BootReaches queued false none (.yieldSaved .loop false) :=
    (hdecided.compute .runYield fun _ => rfl).compute .yieldSave fun _ => rfl
  have hmasked : BootReaches queued true none (.yieldMasked .loop false) :=
    hsaved.compute .yieldMask (by decide)
  have hpicked : BootReaches picked true none (.yieldSwitching .loop false 2) :=
    (hmasked.acquire .yieldLock).release (.yieldPick (t := thread) rfl rfl)
  -- the switch to the new thread, which has not run before
  obtain ⟨events, cpu, run, hidle, _, hmask, _, hrunning, hpoint, hothers⟩ := hpicked
  have move : Move cpu.system cpu.masked (cpu.points cpu.running) (.switch 2) cpu.system cpu.masked
      (.yieldDone .loop false) := by
    rw [hrunning, hpoint]
    exact .yieldSwitch
  have hkeeps : ∀ next, KeepsMask cpu (.thread (.switch 2)) next := by
    intro next hevent
    cases hevent
  have hother : (2 : UInt64) ≠ cpu.running := by
    rw [hrunning]
    decide
  refine ⟨_, _, run.snoc ⟨.switch hidle move, hkeeps _⟩, ⟨cpu.running, ?_⟩, hidle, rfl, ?_, hmask⟩
  · have hlast := goto_running cpu cpu.system cpu.masked (.yieldDone .loop false)
    show ((cpu.goto cpu.system cpu.masked (.yieldDone .loop false)).points cpu.running).Entered
    rw [hlast]
    trivial
  · have hkept := goto_other cpu cpu.system cpu.masked (.yieldDone .loop false) hother
    exact hkept.trans (hothers 2 (by decide))

end Hyperion.Proc
