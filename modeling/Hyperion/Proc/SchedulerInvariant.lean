import Hyperion.Proc.Scheduler

/-!
# No thread is lost, duplicated or resurrected

The invariant ties the threads owned by the scheduler to the history of calls:
`current` is a running thread, the ready queue holds ready threads, and together
they are exactly the boot thread and the spawned threads without those that
exited.  The boot thread never exits, so it is queued whenever it does not run,
which is why `exit_current` always finds a successor.

Thread identifiers come from a wrapping 64-bit counter.  The `n`-th spawned
thread has identifier `n + 2` modulo `2^64`, so identifiers are distinct as long
as fewer than `2^64` threads are spawned (`issued_nodup`).
-/

namespace Hyperion.Proc

open Hyperion.Lib

/-- The threads owned by the scheduler. -/
def System.threads (s : System) : List Thread := s.sched.current.toList ++ s.sched.ready

def System.tids (s : System) : List UInt64 := s.threads.map Thread.tid

/-- The threads spawned so far, in order. -/
def spawned (events : List Event) : List UInt64 :=
  events.filterMap fun event => match event with
    | .spawn _ tid => some tid
    | _ => none

/-- The threads that exited so far, in order. -/
def exited (events : List Event) : List UInt64 :=
  events.filterMap fun event => match event with
    | .exit tid => some tid
    | _ => none

/-! ## Thread identifiers -/

/-- The boot thread and the first `n` spawned threads. -/
def issued (n : ℕ) : List UInt64 := (List.range (n + 1)).map fun i => UInt64.ofNat (i + 1)

theorem issued_succ (n : ℕ) : issued (n + 1) = issued n ++ [UInt64.ofNat (n + 2)] := by
  rw [issued, List.range_succ, List.map_append]
  rfl

/-- `2^64` consecutive values of the counter are distinct. -/
theorem issued_nodup {n : ℕ} (hn : n < 2 ^ 64) : (issued n).Nodup := by
  refine (List.nodup_range).map_on ?_
  intro i hi j hj heq
  rw [List.mem_range] at hi hj
  have hnat := congrArg UInt64.toNat heq
  rw [UInt64.toNat_ofNat', UInt64.toNat_ofNat'] at hnat
  omega

/-! ## The invariant -/

structure Owned (events : List Event) (s : System) : Prop where
  current_running : ∃ t, s.sched.current = some t ∧ t.state = .running
  ready_state : ∀ t ∈ s.sched.ready, t.state = .ready
  tids_nodup : s.tids.Nodup
  mem_tids : ∀ tid, tid ∈ s.tids ↔ tid ∈ bootTid :: spawned events ∧ tid ∉ exited events
  boot_notMem : bootTid ∉ exited events
  exited_subset : exited events ⊆ bootTid :: spawned events
  issued_eq : bootTid :: spawned events = issued (spawned events).length
  nextTid_eq : s.nextTid = UInt64.ofNat ((spawned events).length + 2)

theorem owned_init (kernelPid : UInt64) : Owned [] (System.new kernelPid).init :=
  ⟨⟨_, rfl, rfl⟩, by simp [System.new, System.init, System.bootThread, System.allocTid],
    by simp [System.tids, System.threads, System.new, System.init, System.bootThread,
      System.allocTid],
    by simp [System.tids, System.threads, System.new, System.init, System.bootThread,
      System.allocTid, spawned, exited, bootTid],
    by simp [exited], by simp [exited], rfl, rfl⟩

/-! ## What each call does -/

variable {events : List Event} {s : System}

theorem Owned.boot_mem (hinv : Owned events s) :
    bootTid ∈ s.tids :=
  (hinv.mem_tids bootTid).mpr ⟨List.mem_cons_self .., hinv.boot_notMem⟩

/-- Whenever a thread other than the boot thread runs, the boot thread is queued. -/
theorem Owned.ready_ne_nil (hinv : Owned events s) {t : Thread}
    (hcurrent : s.sched.current = some t) (hboot : t.tid ≠ bootTid) : s.sched.ready ≠ [] := by
  intro hnil
  have hmem := hinv.boot_mem
  rw [System.tids, System.threads, hcurrent, hnil] at hmem
  exact hboot (by simpa [eq_comm] using hmem)

theorem exitCurrent_of_cons {next : Thread} {rest : List Thread}
    (hready : s.sched.ready = next :: rest) :
    s.exitCurrent = .ok { s with
      sched.ready := rest
      sched.current := some { next with state := .running } } := by
  simp [System.exitCurrent, System.markExited, hready]

theorem yieldNow_of_nil (hready : s.sched.ready = []) :
    s.yieldNow = .ok { s with sched.needResched := false } := by
  simp [System.yieldNow, hready]

theorem yieldNow_of_cons {t next : Thread} {rest : List Thread}
    (hcurrent : s.sched.current = some t) (hready : s.sched.ready = next :: rest) :
    s.yieldNow = .ok { s with
      sched.needResched := false
      sched.ready := rest ++ [{ t with state := .ready }]
      sched.current := some { next with state := .running } } := by
  simp [System.yieldNow, hcurrent, hready]

/-! ## The invariant is kept -/

/-- A call that spawns and ends no thread keeps the invariant if it permutes the
identifiers. -/
theorem Owned.of_perm {s s' : System} (hinv : Owned events s) {event : Event}
    (hspawned : spawned (events ++ [event]) = spawned events)
    (hexited : exited (events ++ [event]) = exited events)
    (hcurrent : ∃ t, s'.sched.current = some t ∧ t.state = .running)
    (hready : ∀ t ∈ s'.sched.ready, t.state = .ready) (hperm : s'.tids.Perm s.tids)
    (hnext : s'.nextTid = s.nextTid) :
    Owned (events ++ [event]) s' := by
  refine ⟨hcurrent, hready, hperm.nodup_iff.mpr hinv.tids_nodup, ?_, ?_, ?_, ?_, ?_⟩
  · intro tid
    rw [hperm.mem_iff, hinv.mem_tids, hspawned, hexited]
  · rw [hexited]
    exact hinv.boot_notMem
  · rw [hspawned, hexited]
    exact hinv.exited_subset
  · rw [hspawned]
    exact hinv.issued_eq
  · rw [hspawned, hnext]
    exact hinv.nextTid_eq

theorem owned_spawn (hinv : Owned events s) (name : String)
    (hcount : (spawned events).length + 1 < 2 ^ 64) :
    Owned (events ++ [.spawn name (s.spawn name).1]) (s.spawn name).2 := by
  have htid : (s.spawn name).1 = s.nextTid := rfl
  have hspawned : spawned (events ++ [.spawn name (s.spawn name).1]) =
      spawned events ++ [s.nextTid] := by
    simp [spawned, htid]
  have hexited : exited (events ++ [.spawn name (s.spawn name).1]) = exited events := by
    simp [exited]
  have htids : (s.spawn name).2.tids = s.tids ++ [s.nextTid] := by
    simp [System.tids, System.threads, System.spawn, System.newThread, System.allocTid]
  have hissued : bootTid :: (spawned events ++ [s.nextTid]) =
      issued ((spawned events).length + 1) := by
    rw [issued_succ, ← hinv.issued_eq, hinv.nextTid_eq, List.cons_append]
  -- the new identifier was never issued before, so it did not exit either
  have hfresh : s.nextTid ∉ bootTid :: spawned events := by
    have hnodup := issued_nodup hcount
    rw [← hissued, ← List.cons_append] at hnodup
    exact fun hmem => (List.disjoint_of_nodup_append hnodup) hmem (by simp)
  have hnotExited : s.nextTid ∉ exited events := fun hmem => hfresh (hinv.exited_subset hmem)
  have hnotOwned : s.nextTid ∉ s.tids := fun hmem => hfresh ((hinv.mem_tids _).mp hmem).1
  refine ⟨hinv.current_running, ?_, ?_, ?_, ?_, ?_, ?_, ?_⟩
  · intro t ht
    rcases List.mem_append.mp ht with hold | hnew
    · exact hinv.ready_state t hold
    · rw [List.mem_singleton.mp hnew]
      rfl
  · rw [htids]
    exact hinv.tids_nodup.append (List.nodup_singleton _) (by simpa using hnotOwned)
  · intro tid
    rw [htids, hspawned, hexited, List.mem_append, hinv.mem_tids, ← List.cons_append,
      List.mem_append, List.mem_singleton]
    constructor
    · rintro (⟨hissued, hnot⟩ | rfl)
      · exact ⟨.inl hissued, hnot⟩
      · exact ⟨.inr rfl, hnotExited⟩
    · rintro ⟨hold | rfl, hnot⟩
      · exact .inl ⟨hold, hnot⟩
      · exact .inr rfl
  · rw [hexited]
    exact hinv.boot_notMem
  · rw [hexited, hspawned, ← List.cons_append]
    exact fun tid hmem => List.mem_append_left _ (hinv.exited_subset hmem)
  · rw [hspawned, hissued, List.length_append, List.length_singleton]
  · rw [hspawned, List.length_append, List.length_singleton]
    change s.nextTid + 1 = _
    rw [hinv.nextTid_eq]
    simp [add_assoc]

theorem owned_yield {s s' : System} (hinv : Owned events s) (hyield : s.yieldNow = .ok s') :
    Owned (events ++ [.yield]) s' := by
  obtain ⟨t, hcurrent, hrunning⟩ := hinv.current_running
  have hspawned : spawned (events ++ [.yield]) = spawned events := by simp [spawned]
  have hexited : exited (events ++ [.yield]) = exited events := by simp [exited]
  cases hready : s.sched.ready with
  | nil =>
    rw [yieldNow_of_nil hready] at hyield
    obtain rfl := Except.ok.inj hyield
    exact hinv.of_perm hspawned hexited ⟨t, hcurrent, hrunning⟩ hinv.ready_state (List.Perm.refl _)
      rfl
  | cons next rest =>
    rw [yieldNow_of_cons hcurrent hready] at hyield
    obtain rfl := Except.ok.inj hyield
    refine hinv.of_perm hspawned hexited ⟨_, rfl, rfl⟩ ?_ ?_ rfl
    · intro u hu
      rcases List.mem_append.mp hu with hold | hnew
      · exact hinv.ready_state u (by rw [hready]; exact List.mem_cons_of_mem _ hold)
      · rw [List.mem_singleton.mp hnew]
    · -- the running thread moves from the front of the list to its end
      simp only [System.tids, System.threads, hcurrent, hready, Option.toList_some,
        List.map_append, List.map_cons, List.map_nil, List.cons_append, List.nil_append]
      exact List.perm_append_singleton t.tid (next.tid :: rest.map Thread.tid)

theorem owned_exit {s s' : System} (hinv : Owned events s) {t : Thread}
    (hcurrent : s.sched.current = some t) (hboot : t.tid ≠ bootTid) (hexit : s.exitCurrent = .ok s')
    : Owned (events ++ [.exit t.tid]) s' := by
  obtain ⟨next, rest, hready⟩ := List.exists_cons_of_ne_nil (hinv.ready_ne_nil hcurrent hboot)
  rw [exitCurrent_of_cons hready] at hexit
  obtain rfl := Except.ok.inj hexit
  have hspawned : spawned (events ++ [.exit t.tid]) = spawned events := by simp [spawned]
  have hexited : exited (events ++ [.exit t.tid]) = exited events ++ [t.tid] := by simp [exited]
  have htids : s.tids = t.tid :: next.tid :: rest.map Thread.tid := by
    simp [System.tids, System.threads, hcurrent, hready]
  have hnodup := hinv.tids_nodup
  rw [htids, List.nodup_cons] at hnodup
  have hmem : t.tid ∈ s.tids := by simp [htids]
  refine ⟨⟨_, rfl, rfl⟩, ?_, hnodup.2, ?_, ?_, ?_, ?_, ?_⟩
  · intro u hu
    exact hinv.ready_state u (by rw [hready]; exact List.mem_cons_of_mem _ hu)
  · intro tid
    change tid ∈ next.tid :: rest.map Thread.tid ↔ _
    have hold := hinv.mem_tids tid
    rw [htids, List.mem_cons] at hold
    rw [hspawned, hexited, List.mem_append, List.mem_singleton, not_or, ← and_assoc, ← hold]
    constructor
    · intro hlater
      exact ⟨.inr hlater, fun heq => hnodup.1 (heq ▸ hlater)⟩
    · rintro ⟨heq | hlater, hne⟩
      · exact absurd heq hne
      · exact hlater
  · rw [hexited, List.mem_append, List.mem_singleton, not_or]
    exact ⟨hinv.boot_notMem, hboot.symm⟩
  · rw [hexited, hspawned]
    intro tid hin
    rcases List.mem_append.mp hin with hold | hnew
    · exact hinv.exited_subset hold
    · rw [List.mem_singleton.mp hnew]
      exact ((hinv.mem_tids _).mp hmem).1
  · rw [hspawned]
    exact hinv.issued_eq
  · rw [hspawned]
    exact hinv.nextTid_eq

theorem step_owned (events : List Event) (s : System) (event : Event) (next : System)
    (hinv : (spawned events).length < 2 ^ 64 → Owned events s) (step : Step s event next) :
    (spawned (events ++ [event])).length < 2 ^ 64 → Owned (events ++ [event]) next := by
  intro hcount
  have hle : (spawned events).length ≤ (spawned (events ++ [event])).length := by
    simp [spawned]
  have hinv := hinv (by omega)
  cases step with
  | spawn name =>
    refine owned_spawn hinv name ?_
    simpa [spawned] using hcount
  | tick =>
    exact hinv.of_perm (by simp [spawned]) (by simp [exited]) hinv.current_running
      hinv.ready_state (List.Perm.refl _) rfl
  | yield hyield => exact owned_yield hinv hyield
  | exit hcurrent hboot hexit => exact owned_exit hinv hcurrent hboot hexit

theorem run_owned {kernelPid : UInt64} (run : Run Step (System.new kernelPid).init events s)
    (hcount : (spawned events).length < 2 ^ 64) : Owned events s :=
  run.history_invariant (fun events s => (spawned events).length < 2 ^ 64 → Owned events s)
    (fun _ => owned_init kernelPid) step_owned hcount

/-- **The scheduler owns exactly the live threads.**  In every run with fewer than
`2^64` spawns in which the boot thread does not exit: `current` is a running
thread, queued threads are ready, the identifiers owned are distinct and are
those of the boot thread and the spawned threads that have not exited,
`snapshot` lists exactly these, and neither `expect` can fail. -/
theorem reachable_threads (kernelPid : UInt64) (events : List Event) (s : System)
    (run : Run Step (System.new kernelPid).init events s)
    (hcount : (spawned events).length < 2 ^ 64) :
    (∃ t, s.sched.current = some t ∧ t.state = .running) ∧
    (∀ t ∈ s.sched.ready, t.state = .ready) ∧
    s.tids.Nodup ∧
    (∀ tid, tid ∈ s.tids ↔ (tid = bootTid ∨ tid ∈ spawned events) ∧ tid ∉ exited events) ∧
    s.snapshot = s.threads.map (fun t => (t.tid, t.name, t.state)) ∧
    s.snapshot.map Prod.fst = s.tids ∧
    (∃ s', s.yieldNow = .ok s') ∧
    (∀ t, s.sched.current = some t → t.tid ≠ bootTid → ∃ s', s.exitCurrent = .ok s') := by
  have hinv := run_owned run hcount
  obtain ⟨t, hcurrent, hrunning⟩ := hinv.current_running
  refine ⟨⟨t, hcurrent, hrunning⟩, hinv.ready_state, hinv.tids_nodup, ?_, rfl, ?_, ?_, ?_⟩
  · intro tid
    rw [hinv.mem_tids, List.mem_cons]
  · rw [System.snapshot, List.map_map]
    rfl
  · cases hready : s.sched.ready with
    | nil => exact ⟨_, yieldNow_of_nil hready⟩
    | cons next rest => exact ⟨_, yieldNow_of_cons hcurrent hready⟩
  · intro u hu hboot
    obtain ⟨next, rest, hready⟩ := List.exists_cons_of_ne_nil (hinv.ready_ne_nil hu hboot)
    exact ⟨_, exitCurrent_of_cons hready⟩

/-- A thread is spawned, gets the processor and exits; the boot thread runs
again. -/
theorem reachable_threads_spawn_exit :
    ∃ s, Run Step (System.new 1).init [.spawn "shell" 2, .yield, .exit 2] s ∧ s.tids = [1] ∧
      s.snapshot.map Prod.fst = s.tids := by
  have hrun : Run Step (System.new 1).init [.spawn "shell" 2, .yield, .exit 2]
      ⟨⟨some ⟨1, "boot", .running, 1⟩, [], false⟩, 3, 1⟩ :=
    Run.nil.snoc (Step.spawn _ "shell") |>.snoc (Step.yield rfl)
      |>.snoc (Step.exit (t := ⟨2, "shell", .running, 1⟩) rfl (by decide) rfl)
  obtain ⟨_, _, _, _, _, hsnapshot, _, _⟩ := reachable_threads 1 _ _ hrun (by decide)
  exact ⟨_, hrun, rfl, hsnapshot⟩

end Hyperion.Proc
