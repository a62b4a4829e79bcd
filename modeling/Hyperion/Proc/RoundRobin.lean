import Hyperion.Proc.SchedulerInvariant
import Mathlib.Data.List.Rotate

/-!
# Round robin

`yield_now` and `exit_current` both switch to the thread at the front of the ready queue, and
everything that enters the queue enters it at the back.  Written one after the other, the
threads switched to so far and the threads that wait form a line (`line`) that only ever grows
at its end: a switch moves the border between the two parts, a new thread or a thread that
yields joins at the back.  So the threads that wait in some state are switched to in their
order, before all others.

Without threads that start or exit, a `yield_now` is one rotation of the current thread and the
queue.
-/

namespace Hyperion.Proc

open Hyperion.Lib

/-! ## Calls and context switches -/

inductive Call where
  | spawn (name : String)
  | tick
  | yield
  | exit
  deriving DecidableEq, Repr

namespace System

def call (s : System) : Call → Checked System
  | .spawn name => .ok (s.spawn name).2
  | .tick => .ok s.onTick
  | .yield => s.yieldNow
  | .exit => s.exitCurrent

/-- Whether a call comes to `__ctx_switch`: `yield_now` returns early where nothing is ready. -/
def switches (s : System) : Call → Bool
  | .yield => !s.sched.ready.isEmpty
  | .exit => true
  | _ => false

end System

/-- What is seen of a call: whether it switched, and which thread is current behind it. -/
structure Observed where
  call : Call
  switched : Bool
  current : Option Thread
  deriving DecidableEq, Repr

inductive CallStep : System → Observed → System → Prop
  | call {s s' : System} (call : Call) (hcall : s.call call = .ok s') :
      CallStep s ⟨call, s.switches call, s'.sched.current⟩ s'

/-- What the context switches of a run made current, in order. -/
def switchTargets (seen : List Observed) : List (Option Thread) :=
  (seen.filter Observed.switched).map Observed.current

/-- A thread as the switch to it leaves it. -/
def Thread.started (t : Thread) : Thread := { t with state := .running }

/-- A thread as `yield_now` puts it into the queue. -/
def Thread.readied (t : Thread) : Thread := { t with state := .ready }

/-- What a call does to the queue.  It leaves the front alone or it switches to it, and
what joins at the back is ready. -/
theorem CallStep.cases {s s' : System} {o : Observed} (step : CallStep s o s') :
    ∃ joined : List Thread, (∀ t ∈ joined, t.state = .ready) ∧ o.current = s'.sched.current ∧
      (o.switched = false ∧ s'.sched.current = s.sched.current ∧
          s'.sched.ready = s.sched.ready ++ joined ∨
        ∃ next rest, o.switched = true ∧ s.sched.ready = next :: rest ∧
          s'.sched.current = some next.started ∧ s'.sched.ready = rest ++ joined) := by
  obtain ⟨call, hcall⟩ := step
  cases call with
  | spawn name =>
    cases hcall
    exact ⟨[(s.newThread name).1], by simp [System.newThread], rfl, .inl ⟨rfl, rfl, rfl⟩⟩
  | tick =>
    cases hcall
    exact ⟨[], by simp, rfl, .inl ⟨rfl, rfl, (List.append_nil _).symm⟩⟩
  | yield =>
    cases hready : s.sched.ready with
    | nil =>
      rw [System.call, yieldNow_of_nil hready] at hcall
      cases hcall
      have hstays : s.switches .yield = false := by simp [System.switches, hready]
      exact ⟨[], by simp, rfl, .inl ⟨hstays, rfl, by simp [hready]⟩⟩
    | cons next rest =>
      cases hcurrent : s.sched.current with
      | none =>
        rw [System.call, System.yieldNow, hready, hcurrent] at hcall
        cases hcall
      | some t =>
        rw [System.call, yieldNow_of_cons hcurrent hready] at hcall
        cases hcall
        have hswitches : s.switches .yield = true := by simp [System.switches, hready]
        exact ⟨[t.readied], by simp [Thread.readied], rfl,
          Or.inr ⟨next, rest, hswitches, rfl, rfl, rfl⟩⟩
  | exit =>
    cases hready : s.sched.ready with
    | nil =>
      simp [System.call, System.exitCurrent, System.markExited, hready] at hcall
    | cons next rest =>
      rw [System.call, exitCurrent_of_cons hready] at hcall
      cases hcall
      exact ⟨[], by simp, rfl, .inr ⟨next, rest, rfl, rfl, rfl, (List.append_nil _).symm⟩⟩

/-! ## The line -/

/-- The threads switched to, and then those that wait. -/
def line (seen : List Observed) (s : System) : List (Option Thread) :=
  switchTargets seen ++ s.sched.ready.map fun t => some t.started

section Line

variable {seen : List Observed} {s s' : System}

theorem switchTargets_snoc (seen : List Observed) (o : Observed) :
    switchTargets (seen ++ [o]) =
      switchTargets seen ++ (if o.switched then [o.current] else []) := by
  cases hswitched : o.switched <;> simp [switchTargets, hswitched]

/-- No call lets a thread into the line other than at its end. -/
theorem line_step {o : Observed} (step : CallStep s o s') :
    line seen s <+: line (seen ++ [o]) s' := by
  obtain ⟨joined, _, hseen, hcases⟩ := step.cases
  refine ⟨joined.map fun t => some t.started, ?_⟩
  rcases hcases with ⟨hstay, _, hready⟩ | ⟨next, rest, hswitch, hfront, hcurrent, hready⟩
  · simp [line, switchTargets_snoc, hstay, hready]
  · simp [line, switchTargets_snoc, hswitch, hfront, hseen, hcurrent, hready]

theorem line_run {start : System} (run : Run CallStep start seen s) :
    line [] start <+: line seen s :=
  run.history_invariant (fun seen s => line [] start <+: line seen s) (List.prefix_refl _)
    fun _ _ _ _ ih step => ih.trans (line_step step)

/-- The threads that wait are switched to one after the other. -/
theorem switchTargets_of_run {start : System} (run : Run CallStep start seen s) {i : ℕ}
    {t : Thread} (hwaits : start.sched.ready[i]? = some t)
    (hlt : i < (switchTargets seen).length) : (switchTargets seen)[i]? = some (some t.started) := by
  have hfirst : (line [] start)[i]? = some (some t.started) := by
    simp [line, switchTargets, hwaits]
  have hinside : i < (line [] start).length := (List.getElem?_eq_some_iff.mp hfirst).1
  have hlast : (line seen s)[i]? = some (some t.started) := by
    obtain ⟨late, hline⟩ := line_run run
    rw [← hline, List.getElem?_append_left hinside, hfirst]
  rwa [line, List.getElem?_append_left hlt] at hlast

end Line

/-! ## Rotation -/

/-- The current thread is running and those that wait are ready. -/
structure Tidy (s : System) : Prop where
  current_running : ∃ t, s.sched.current = some t ∧ t.state = .running
  ready_state : ∀ t ∈ s.sched.ready, t.state = .ready

/-- The current thread, and the queue behind it. -/
def Ring (threads : List Thread) (s : System) : Prop :=
  ∃ t rest, threads = t :: rest ∧ s.sched.current = some t.started ∧
    s.sched.ready = rest.map Thread.readied

section Rotation

variable {s s' : System} {threads : List Thread}

/-- In a tidy state the ring of the threads tells what is current and what waits. -/
theorem Tidy.ring_iff (tidy : Tidy s) :
    ∃ t, ∀ s', Ring (t :: s.sched.ready) s' ↔
      s'.sched.current = s.sched.current ∧ s'.sched.ready = s.sched.ready := by
  obtain ⟨t, hcurrent, hrunning⟩ := tidy.current_running
  have hstarted : t.started = t := by rw [Thread.started, ← hrunning]
  have hreadied : s.sched.ready.map Thread.readied = s.sched.ready := by
    refine (List.map_congr_left fun u hu => ?_).trans (List.map_id _)
    rw [Thread.readied, ← tidy.ready_state u hu, id]
  refine ⟨t, fun s' => ⟨?_, ?_⟩⟩
  · rintro ⟨_, _, hthreads, hcurrent', hready'⟩
    cases hthreads
    exact ⟨by rw [hcurrent', hstarted, hcurrent], by rw [hready', hreadied]⟩
  · rintro ⟨hcurrent', hready'⟩
    exact ⟨t, _, rfl, by rw [hcurrent', hcurrent, hstarted], by rw [hready', hreadied]⟩

theorem ring_yield (hring : Ring threads s) :
    ∃ s', s.yieldNow = .ok s' ∧ Ring (threads.rotate 1) s' := by
  obtain ⟨t, rest, rfl, hcurrent, hready⟩ := hring
  cases rest with
  | nil => exact ⟨_, yieldNow_of_nil hready, t, [], by simp, hcurrent, hready⟩
  | cons next rest =>
    refine ⟨_, yieldNow_of_cons hcurrent hready, next, rest ++ [t], by simp, rfl, ?_⟩
    rw [List.map_append]
    rfl

theorem ring_call {call : Call} (hcall : call = .tick ∨ call = .yield) (hring : Ring threads s) :
    ∃ s', s.call call = .ok s' ∧ Ring (threads.rotate ([call].count .yield)) s' := by
  rcases hcall with rfl | rfl
  · have hrotate : threads.rotate ([Call.tick].count .yield) = threads := List.rotate_zero _
    rw [hrotate]
    exact ⟨_, rfl, hring⟩
  · exact ring_yield hring

/-- Each `yield_now` of a sequence of calls is one rotation. -/
theorem ring_calls {calls : List Call} (hcalls : ∀ call ∈ calls, call = .tick ∨ call = .yield) :
    ∀ {s : System} {threads : List Thread}, Ring threads s →
      ∃ s', calls.foldlM System.call s = .ok s' ∧
        Ring (threads.rotate (calls.count .yield)) s' := by
  induction calls with
  | nil =>
    intro s threads hring
    exact ⟨s, rfl, by simpa using hring⟩
  | cons call rest ih =>
    intro s threads hring
    obtain ⟨middle, hcall, hmiddle⟩ := ring_call (hcalls call (by simp)) hring
    obtain ⟨last, hrest, hlast⟩ := ih (fun c hc => hcalls c (by simp [hc])) hmiddle
    refine ⟨last, ?_, ?_⟩
    · rw [List.foldlM_cons, hcall]
      exact hrest
    · rw [List.rotate_rotate] at hlast
      rwa [← List.singleton_append, List.count_append]

theorem tidy_init (kernelPid : UInt64) : Tidy (System.new kernelPid).init :=
  ⟨(owned_init kernelPid).current_running, (owned_init kernelPid).ready_state⟩

theorem tidy_step {o : Observed} (tidy : Tidy s) (step : CallStep s o s') : Tidy s' := by
  obtain ⟨joined, hjoined, _, ⟨_, hcurrent, hready⟩ | ⟨next, rest, _, hfront, hcurrent, hready⟩⟩ :=
    step.cases
  · refine ⟨by rw [hcurrent]; exact tidy.current_running, fun t ht => ?_⟩
    rw [hready] at ht
    exact (List.mem_append.mp ht).elim (tidy.ready_state t) (hjoined t)
  · refine ⟨⟨_, hcurrent, rfl⟩, fun t ht => ?_⟩
    rw [hready] at ht
    refine (List.mem_append.mp ht).elim (fun hrest => tidy.ready_state t ?_) (hjoined t)
    rw [hfront]
    exact List.mem_cons_of_mem _ hrest

theorem tidy_run {kernelPid : UInt64} {seen : List Observed}
    (run : Run CallStep (System.new kernelPid).init seen s) : Tidy s :=
  run.invariant Tidy (tidy_init kernelPid) fun _ _ _ tidy step => tidy_step tidy step

/-- As many calls of `yield_now` as there are threads restore a tidy state. -/
theorem calls_restore (tidy : Tidy s) {calls : List Call}
    (hcalls : ∀ call ∈ calls, call = .tick ∨ call = .yield)
    (hcount : calls.count .yield = s.sched.ready.length + 1) :
    ∃ s', calls.foldlM System.call s = .ok s' ∧
      s'.sched.current = s.sched.current ∧ s'.sched.ready = s.sched.ready := by
  obtain ⟨t, hring⟩ := tidy.ring_iff
  obtain ⟨s', hfold, hrotated⟩ := ring_calls hcalls ((hring s).mpr ⟨rfl, rfl⟩)
  have hlength : calls.count .yield = (t :: s.sched.ready).length := hcount
  rw [hlength, List.rotate_length] at hrotated
  exact ⟨s', hfold, (hring s').mp hrotated⟩

end Rotation

/-- **Round robin.**  From every state, whatever is called, the threads that wait become
current in their order, one with each context switch.  In every state that the calls lead to
from `init`, one `yield_now` for each thread leads back to the current thread, the queue and
the thread states, whatever ticks come in between. -/
theorem round_robin (start s : System) (seen : List Observed) (run : Run CallStep start seen s) :
    (∀ i t, start.sched.ready[i]? = some t → i < (switchTargets seen).length →
      (switchTargets seen)[i]? = some (some t.started)) ∧
    ∀ kernelPid, start = (System.new kernelPid).init →
      ∀ calls : List Call, (∀ call ∈ calls, call = .tick ∨ call = .yield) →
        calls.count .yield = s.sched.ready.length + 1 →
        ∃ s', calls.foldlM System.call s = .ok s' ∧
          s'.sched.current = s.sched.current ∧ s'.sched.ready = s.sched.ready := by
  refine ⟨fun i t hwaits hlt => switchTargets_of_run run hwaits hlt, ?_⟩
  rintro kernelPid rfl calls hcalls hcount
  exact calls_restore (tidy_run run) hcalls hcount

theorem round_robin_boot :
    ∃ s seen, Run CallStep (System.new 1).init seen s ∧
      s.sched.ready.map Thread.name = ["shell", "net"] ∧
      ∃ s', [Call.yield, .tick, .yield, .yield].foldlM System.call s = .ok s' ∧
        s'.sched.current = s.sched.current ∧ s'.sched.ready = s.sched.ready := by
  have hrun := (Run.nil.snoc (CallStep.call (s := (System.new 1).init) (.spawn "shell") rfl)).snoc
    (CallStep.call (.spawn "net") rfl)
  exact ⟨_, _, hrun, by decide, (round_robin _ _ _ hrun).2 1 rfl _ (by decide) (by decide)⟩

end Hyperion.Proc
