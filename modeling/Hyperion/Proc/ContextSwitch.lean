import Hyperion.Lib.Memory
import Hyperion.Proc.SchedulerInvariant

/-!
# Threads on one processor

`proc/context.rs` is a facade: `Context`, `__ctx_switch` and `init_context` come from the
architecture.  `Facade` is what the scheduler relies on, and each architecture proves it for its
own code.  A `Kernel` is the scheduler together with the machine its threads share, and the places
in memory where the context and the stack of each thread are.

Between two switches the running thread may do anything to the registers and to memory, except that
it leaves alone the contexts of all threads and the stacks of the others.  When it calls
`__ctx_switch`, its stack pointer is inside its own stack.

Then every thread that gets the processor finds what it left (`resumed_as_left`): the same
registers, its own return address, and the same bytes on its stack.  A thread that runs for the
first time finds what `init_context` laid out.
-/

namespace Hyperion.Proc

open Hyperion.Lib

/-- What an architecture provides for the scheduler. -/
structure Facade (Machine Regs : Type) where
  mem : Machine → Memory
  /-- what the caller of `__ctx_switch` is to find when the call returns -/
  leaves : Machine → Regs
  /-- what it finds -/
  resumes : Machine → Regs
  /-- what a thread finds that is parked in the context at an address -/
  parked : Memory → ℕ → Regs
  /-- the part of a stack that `parked` looks at -/
  slot : Regs → Set ℕ
  /-- `size_of::<Context>()` -/
  size : ℕ
  ctxSwitch : ℕ → ℕ → Machine → Machine
  /-- `init_context`, on a context that is zero -/
  initContext : ℕ → UInt64 → UInt64 → UInt64 → Memory → Memory
  /-- what a thread finds that never ran -/
  starts : UInt64 → UInt64 → UInt64 → Regs
  parked_congr : ∀ {mem mem' : Memory} {ctx : ℕ},
    (∀ a ∈ Set.Ico ctx (ctx + size) ∪ slot (parked mem ctx), mem' a = mem a) →
      parked mem' ctx = parked mem ctx
  mem_ctxSwitch : ∀ {prev next : ℕ} {m : Machine} {a : ℕ}, prev + size ≤ 2 ^ 64 →
    a ∉ Set.Ico prev (prev + size) → mem (ctxSwitch prev next m) a = mem m a
  parked_ctxSwitch : ∀ {prev next : ℕ} {m : Machine}, prev + size ≤ 2 ^ 64 →
    Disjoint (Set.Ico prev (prev + size)) (slot (leaves m)) →
      parked (mem (ctxSwitch prev next m)) prev = leaves m
  resumes_ctxSwitch : ∀ {prev next : ℕ} {m : Machine}, prev + size ≤ 2 ^ 64 →
    next + size ≤ 2 ^ 64 →
    Disjoint (Set.Ico prev (prev + size))
      (Set.Ico next (next + size) ∪ slot (parked (mem m) next)) →
      resumes (ctxSwitch prev next m) = parked (mem m) next
  initContext_apply : ∀ {ctx : ℕ} {entry arg top : UInt64} {mem : Memory} {a : ℕ},
    32 ≤ top.toNat → a ∉ Set.Ico ctx (ctx + size) ∪ Set.Ico (top.toNat - 32) top.toNat →
      initContext ctx entry arg top mem a = mem a
  parked_initContext : ∀ {ctx : ℕ} {entry arg top : UInt64} {mem : Memory}, 32 ≤ top.toNat →
    Disjoint (Set.Ico ctx (ctx + size)) (Set.Ico (top.toNat - 32) top.toNat) →
      parked (initContext ctx entry arg top mem) ctx = starts entry arg top
  slot_starts : ∀ {entry arg top : UInt64}, 32 ≤ top.toNat →
    slot (starts entry arg top) ⊆ Set.Ico (top.toNat - 32) top.toNat

/-- The address of something that is not empty fits in a register. -/
theorem toNat_ofNat_of_add_le {ctx size : ℕ} (hsize : 0 < size) (hctx : ctx + size ≤ 2 ^ 64) :
    (UInt64.ofNat ctx).toNat = ctx :=
  UInt64.toNat_ofNat_of_lt' (by show ctx < 2 ^ 64; omega)

/-- `STACK_SIZE`. -/
def stackSize : ℕ := 16 * 1024

/-- Where the context and the stack of a thread are, for contexts of `size` bytes. -/
structure Place (size : ℕ) where
  ctx : ℕ
  stack : ℕ
  len : ℕ
  ctx_le : ctx + size ≤ 2 ^ 64
  stack_lt : stack + len < 2 ^ 64
  apart : Disjoint (Set.Ico ctx (ctx + size)) (Set.Ico stack (stack + len))

namespace Place

variable {size : ℕ} (p : Place size)

def ctxCells : Set ℕ := Set.Ico p.ctx (p.ctx + size)

def stackCells : Set ℕ := Set.Ico p.stack (p.stack + p.len)

def cells : Set ℕ := p.ctxCells ∪ p.stackCells

/-- The address behind the stack. -/
def top : UInt64 := UInt64.ofNat (p.stack + p.len)

theorem toNat_top : p.top.toNat = p.stack + p.len :=
  UInt64.toNat_ofNat_of_lt' p.stack_lt

end Place

section Kernel

variable {Machine Regs : Type} (F : Facade Machine Regs)

/-- What a thread sees of the machine: its registers and the bytes on its stack. -/
structure View (Regs : Type) where
  regs : Regs
  stack : List UInt8

/-- The scheduler and the machine. -/
structure Kernel where
  sched : System
  machine : Machine
  /-- the places of the threads that exist -/
  place : UInt64 → Option (Place F.size)

/-- What a call of the scheduler did, with what the threads involved left and found. -/
inductive Label (Regs : Type) where
  | compute
  | tick
  | spawned (name : String) (tid entry arg : UInt64) (view : View Regs)
  /-- `yield_now` with no other thread ready -/
  | idle
  | switched (prev : UInt64) (left : View Regs) (next : UInt64) (found : View Regs)
  | exited (tid : UInt64) (next : UInt64) (found : View Regs)

namespace Label

/-- The event of the scheduler, if it is one. -/
def event : Label Regs → Option Event
  | .compute => none
  | .tick => some .tick
  | .spawned name tid .. => some (.spawn name tid)
  | .idle => some .yield
  | .switched .. => some .yield
  | .exited tid .. => some (.exit tid)

/-- The thread that is put aside, and what it is to find again. -/
def left : Label Regs → Option (UInt64 × View Regs)
  | .spawned _ tid _ _ view => some (tid, view)
  | .switched prev view _ _ => some (prev, view)
  | _ => none

/-- The thread that gets the processor, and what it finds. -/
def found : Label Regs → Option (UInt64 × View Regs)
  | .switched _ _ next view => some (next, view)
  | .exited _ next view => some (next, view)
  | _ => none

end Label

/-- What a thread left when it was put aside for the last time. -/
def lastLeft (labels : List (Label Regs)) (tid : UInt64) : Option (View Regs) :=
  (labels.reverse.filterMap Label.left).lookup tid

/-- The stack of a thread. -/
def stackBytes {size : ℕ} (mem : Memory) (p : Place size) : List UInt8 :=
  mem.bytesFrom p.stack p.len

/-- What a thread would find whose context is at its place. -/
def parkedView (mem : Memory) (p : Place F.size) : View Regs :=
  ⟨F.parked mem p.ctx, stackBytes mem p⟩

/-- The kernel after `init`, on the boot stack. -/
def Kernel.boot (kernelPid : UInt64) (machine : Machine) (p : Place F.size) : Kernel F where
  sched := (System.new kernelPid).init
  machine
  place := fun tid => if tid = bootTid then some p else none

/-- The running thread changes the machine.  It writes neither to a context nor to the stack of
another thread. -/
structure Computes (k : Kernel F) (tid : UInt64) (machine : Machine) : Prop where
  ctx : ∀ other p, k.place other = some p → ∀ a ∈ p.ctxCells, F.mem machine a = F.mem k.machine a
  stack : ∀ other p, other ≠ tid → k.place other = some p →
    ∀ a ∈ p.stackCells, F.mem machine a = F.mem k.machine a

/-- A place that a new thread can have. -/
structure Free (k : Kernel F) (p : Place F.size) : Prop where
  len_eq : p.len = stackSize
  disjoint : ∀ other q, k.place other = some q → Disjoint p.cells q.cells

inductive KernelStep : Kernel F → Label Regs → Kernel F → Prop
  | compute {k : Kernel F} {t : Thread} {machine : Machine}
      (hcurrent : k.sched.sched.current = some t)
      (hcomputes : Computes F k t.tid machine) :
      KernelStep k .compute { k with machine }
  | tick (k : Kernel F) : KernelStep k .tick { k with sched := k.sched.onTick }
  | spawn {k : Kernel F} {p : Place F.size} {machine : Machine} (name : String) (entry arg : UInt64)
      (hfree : Free F k p)
      (hmem : F.mem machine = F.initContext p.ctx entry arg p.top (F.mem k.machine)) :
      KernelStep k
        (.spawned name (k.sched.spawn name).1 entry arg
          ⟨F.starts entry arg p.top, stackBytes (F.mem machine) p⟩)
        { sched := (k.sched.spawn name).2
          machine
          place := Function.update k.place (k.sched.spawn name).1 (some p) }
  | idle {k : Kernel F} {sched : System} (hready : k.sched.sched.ready = [])
      (hyield : k.sched.yieldNow = .ok sched) : KernelStep k .idle { k with sched }
  | yield {k : Kernel F} {sched : System} {t next : Thread} {rest : List Thread}
      {p q : Place F.size} {machine : Machine} (hcurrent : k.sched.sched.current = some t)
      (hready : k.sched.sched.ready = next :: rest) (hyield : k.sched.yieldNow = .ok sched)
      (hp : k.place t.tid = some p) (hq : k.place next.tid = some q)
      (hslot : F.slot (F.leaves k.machine) ⊆ p.stackCells)
      (hmachine : machine = F.ctxSwitch p.ctx q.ctx k.machine) :
      KernelStep k
        (.switched t.tid ⟨F.leaves k.machine, stackBytes (F.mem k.machine) p⟩ next.tid
          ⟨F.resumes machine, stackBytes (F.mem machine) q⟩)
        { k with sched, machine }
  /-- the context that is thrown away is on the stack of the thread that exits -/
  | exit {k : Kernel F} {sched : System} {t next : Thread} {rest : List Thread} {p q : Place F.size}
      {machine : Machine} (tossed : ℕ) (hcurrent : k.sched.sched.current = some t)
      (hboot : t.tid ≠ bootTid) (hready : k.sched.sched.ready = next :: rest)
      (hexit : k.sched.exitCurrent = .ok sched) (hp : k.place t.tid = some p)
      (hq : k.place next.tid = some q)
      (htossed : Set.Ico tossed (tossed + F.size) ⊆ p.stackCells) (hlt : tossed + F.size < 2 ^ 64)
      (hmachine : machine = F.ctxSwitch tossed q.ctx k.machine) :
      KernelStep k (.exited t.tid next.tid ⟨F.resumes machine, stackBytes (F.mem machine) q⟩)
        { sched, machine, place := Function.update k.place t.tid none }

/-! ## What a step does to a parked thread -/

variable {F}

section LastLeft

variable {labels : List (Label Regs)} {label : Label Regs} {tid other : UInt64} {view : View Regs}

theorem lastLeft_snoc_of_none (hleft : label.left = none) :
    lastLeft (labels ++ [label]) tid = lastLeft labels tid := by
  simp [lastLeft, hleft]

theorem lastLeft_snoc_self (hleft : label.left = some (tid, view)) :
    lastLeft (labels ++ [label]) tid = some view := by
  simp [lastLeft, hleft]

theorem lastLeft_snoc_of_ne (hleft : label.left = some (other, view)) (hne : tid ≠ other) :
    lastLeft (labels ++ [label]) tid = lastLeft labels tid := by
  simp [lastLeft, hleft, List.lookup_cons, beq_eq_false_iff_ne.mpr hne]

end LastLeft

theorem stackBytes_congr {size : ℕ} {mem mem' : Memory} {p : Place size}
    (hsame : ∀ a ∈ p.stackCells, mem' a = mem a) : stackBytes mem' p = stackBytes mem p := by
  refine List.map_congr_left ?_
  intro i hi
  have hlt : i < p.len := List.mem_range.mp hi
  exact hsame _ ⟨Nat.le_add_right .., by omega⟩

/-- A thread is parked at its place, with its stack pointer in its own stack. -/
structure ParkedAt (mem : Memory) (p : Place F.size) (view : View Regs) : Prop where
  view_eq : parkedView F mem p = view
  slot_subset : F.slot view.regs ⊆ p.stackCells

variable {labels : List (Label Regs)} {p : Place F.size} {label : Label Regs} {k : Kernel F}

/-- A parked thread stays parked while its place is not written to. -/
theorem ParkedAt.congr {mem mem' : Memory} {view : View Regs} (hparked : ParkedAt mem p view)
    (hsame : ∀ a ∈ p.cells, mem' a = mem a) :
    ParkedAt mem' p view := by
  obtain ⟨rfl, hslot⟩ := hparked
  have hregs : F.parked mem' p.ctx = F.parked mem p.ctx := by
    refine F.parked_congr ?_
    rintro a (hctx | hstack)
    · exact hsame a (.inl hctx)
    · exact hsame a (.inr (hslot hstack))
  have hstack : stackBytes mem' p = stackBytes mem p :=
    stackBytes_congr fun a ha => hsame a (.inr ha)
  exact ⟨by rw [parkedView, hregs, hstack, parkedView], hslot⟩

/-- The places of the threads do not overlap. -/
def Apart (place : UInt64 → Option (Place F.size)) : Prop :=
  ∀ tid other p q, tid ≠ other → place tid = some p → place other = some q →
    Disjoint p.cells q.cells

/-- The invariant: every thread that is ready is parked with what it left. -/
structure Parks (labels : List (Label Regs)) (k : Kernel F) : Prop where
  owned : Owned (labels.filterMap Label.event) k.sched
  placed : ∀ tid, tid ∈ k.sched.tids ↔ ∃ p, k.place tid = some p
  apart : Apart k.place
  parked : ∀ t ∈ k.sched.sched.ready, ∀ p, k.place t.tid = some p →
    ∃ view, lastLeft labels t.tid = some view ∧ ParkedAt (F.mem k.machine) p view

/-- Every thread that got the processor found what it had left. -/
def Resumed (labels : List (Label Regs)) : Prop :=
  ∀ before label after, labels = before ++ label :: after → ∀ tid view,
    label.found = some (tid, view) → lastLeft before tid = some view

theorem Resumed.snoc (hresumed : Resumed labels)
    (hlast : ∀ tid view, label.found = some (tid, view) → lastLeft labels tid = some view) :
    Resumed (labels ++ [label]) := by
  intro before found after hsplit tid view hfound
  rcases List.eq_nil_or_concat after with rfl | ⟨init, last, rfl⟩
  · obtain ⟨rfl, hlabel⟩ := List.append_inj' hsplit rfl
    obtain rfl : label = found := by simpa using hlabel
    exact hlast tid view hfound
  · rw [List.concat_eq_append, ← List.cons_append, ← List.append_assoc] at hsplit
    obtain ⟨hinit, -⟩ := List.append_inj' hsplit rfl
    exact hresumed before found init hinit tid view hfound

/-- The identifiers of the running thread and of the ready ones differ. -/
theorem Parks.ready_ne (hparks : Parks labels k) {t u : Thread}
    (hcurrent : k.sched.sched.current = some t) (hu : u ∈ k.sched.sched.ready) :
    u.tid ≠ t.tid := by
  have hnodup := hparks.owned.tids_nodup
  rw [System.tids, System.threads, hcurrent, Option.toList_some, List.singleton_append,
    List.map_cons, List.nodup_cons] at hnodup
  exact fun heq => hnodup.1 (List.mem_map.mpr ⟨u, hu, heq⟩)

/-- A step that leaves no thread and changes only what belongs to the running one. -/
theorem Parks.parked_snoc (hparks : Parks labels k) {mem : Memory} {u : Thread}
    (hu : u ∈ k.sched.sched.ready) (hp : k.place u.tid = some p)
    (hleft : lastLeft (labels ++ [label]) u.tid = lastLeft labels u.tid)
    (hsame : ∀ a ∈ p.cells, mem a = F.mem k.machine a) :
    ∃ view, lastLeft (labels ++ [label]) u.tid = some view ∧ ParkedAt mem p view := by
  obtain ⟨view, hview, hparked⟩ := hparks.parked u hu p hp
  exact ⟨view, hleft.trans hview, hparked.congr hsame⟩

/-! ## The steps -/

theorem tids_spawn (sched : System) (name : String) :
    (sched.spawn name).2.tids = sched.tids ++ [(sched.spawn name).1] := by
  simp [System.tids, System.threads, System.spawn, System.newThread, System.allocTid]

section Steps

variable {labels : List (Label Regs)} {k : Kernel F} (hparks : Parks labels k)

include hparks

theorem parks_compute {t : Thread} {machine : Machine} (hcurrent : k.sched.sched.current = some t)
    (hcomputes : Computes F k t.tid machine) : Parks (labels ++ [.compute]) { k with machine } := by
  refine ⟨?_, hparks.placed, hparks.apart, ?_⟩
  · rw [List.filterMap_append, show [Label.compute].filterMap Label.event = [] from rfl,
      List.append_nil]
    exact hparks.owned
  · intro u hu p hp
    refine hparks.parked_snoc hu hp (lastLeft_snoc_of_none rfl) ?_
    rintro a (hctx | hstack)
    · exact hcomputes.ctx u.tid p hp a hctx
    · exact hcomputes.stack u.tid p (hparks.ready_ne hcurrent hu) hp a hstack

/-- A step after which the same threads are ready, on the same machine. -/
theorem parks_of_sched {label : Label Regs} {sched : System}
    (howned : Owned ((labels ++ [label]).filterMap Label.event) sched)
    (htids : sched.tids = k.sched.tids) (hready : sched.sched.ready = k.sched.sched.ready)
    (hleft : label.left = none) : Parks (labels ++ [label]) { k with sched } := by
  refine ⟨howned, ?_, hparks.apart, ?_⟩
  · intro tid
    show tid ∈ sched.tids ↔ _
    rw [htids]
    exact hparks.placed tid
  · intro u hu p hp
    rw [hready] at hu
    exact hparks.parked_snoc hu hp (lastLeft_snoc_of_none hleft) fun _ _ => rfl

/-- The place of a new thread is nobody else's. -/
theorem place_spawn_eq_none {name : String}
    (howned : Owned ((labels.filterMap Label.event) ++ [.spawn name (k.sched.spawn name).1])
      (k.sched.spawn name).2) : k.place (k.sched.spawn name).1 = none := by
  have hnodup := howned.tids_nodup
  rw [tids_spawn] at hnodup
  have hnotMem : (k.sched.spawn name).1 ∉ k.sched.tids := fun hmem =>
    List.disjoint_of_nodup_append hnodup hmem (List.mem_singleton_self _)
  rw [hparks.placed, not_exists] at hnotMem
  exact Option.eq_none_iff_forall_not_mem.mpr fun p hp => hnotMem p hp

theorem parks_spawn {p : Place F.size} {machine : Machine} (name : String) (entry arg : UInt64)
    (hfree : Free F k p)
    (hmem : F.mem machine = F.initContext p.ctx entry arg p.top (F.mem k.machine))
    (howned : Owned ((labels.filterMap Label.event) ++ [.spawn name (k.sched.spawn name).1])
      (k.sched.spawn name).2) :
    Parks (labels ++ [.spawned name (k.sched.spawn name).1 entry arg
        ⟨F.starts entry arg p.top, stackBytes (F.mem machine) p⟩])
      { sched := (k.sched.spawn name).2
        machine
        place := Function.update k.place (k.sched.spawn name).1 (some p) } := by
  have hnone := place_spawn_eq_none hparks howned
  have hlen := hfree.len_eq
  rw [stackSize] at hlen
  have htop : 32 ≤ p.top.toNat := by
    rw [p.toNat_top]
    omega
  have hupper : Set.Ico (p.top.toNat - 32) p.top.toNat ⊆ p.stackCells := by
    rw [p.toNat_top]
    exact Set.Ico_subset_Ico (by omega) le_rfl
  refine ⟨?_, ?_, ?_, ?_⟩
  · rw [List.filterMap_append]
    exact howned
  · intro tid
    show tid ∈ (k.sched.spawn name).2.tids ↔ _
    rw [tids_spawn, List.mem_append, List.mem_singleton, hparks.placed]
    by_cases heq : tid = (k.sched.spawn name).1
    · subst heq
      simp
    · simp [heq]
  · intro tid other q r hne hq hr
    dsimp only at hq hr
    rw [Function.update_apply] at hq hr
    split_ifs at hq hr with htid hother hother
    · exact absurd (htid.trans hother.symm) hne
    · obtain rfl := Option.some.inj hq
      exact hfree.disjoint other r hr
    · obtain rfl := Option.some.inj hr
      exact (hfree.disjoint tid q hq).symm
    · exact hparks.apart tid other q r hne hq hr
  · intro u hu q hq
    rcases List.mem_append.mp hu with hold | hnew
    · -- a thread that was ready before: its place is apart from the new one
      have hne : u.tid ≠ (k.sched.spawn name).1 := by
        intro heq
        have hsome := (hparks.placed u.tid).mp
          (List.mem_map.mpr ⟨u, List.mem_append_right _ hold, rfl⟩)
        rw [heq, hnone] at hsome
        simp at hsome
      dsimp only at hq
      rw [Function.update_of_ne hne] at hq
      refine hparks.parked_snoc hold hq (lastLeft_snoc_of_ne rfl hne) ?_
      intro a ha
      have hapart := Set.disjoint_right.mp (hfree.disjoint u.tid q hq) ha
      rw [hmem]
      refine F.initContext_apply htop ?_
      rintro (hctx | hstack)
      · exact hapart (.inl hctx)
      · exact hapart (.inr (hupper hstack))
    · -- the new thread
      obtain rfl := List.mem_singleton.mp hnew
      have hqp : q = p := by
        dsimp only at hq
        have hself : (k.sched.newThread name).1.tid = (k.sched.spawn name).1 := rfl
        rw [hself, Function.update_self] at hq
        exact (Option.some.inj hq).symm
      subst hqp
      refine ⟨_, lastLeft_snoc_self rfl, ?_, (F.slot_starts htop).trans hupper⟩
      rw [parkedView, hmem, F.parked_initContext htop (q.apart.mono_right hupper)]

end Steps

/-- The thread that gets the processor finds what it had left, whatever context the leaving
thread saves to, as long as this is apart from the place of the other. -/
theorem resumes_eq (hparks : Parks labels k) {next : Thread} {q : Place F.size} {save : ℕ}
    (hnext : next ∈ k.sched.sched.ready) (hq : k.place next.tid = some q)
    (hsave : save + F.size ≤ 2 ^ 64) (happart : Disjoint (Set.Ico save (save + F.size)) q.cells) :
    lastLeft labels next.tid = some ⟨F.resumes (F.ctxSwitch save q.ctx k.machine),
      stackBytes (F.mem (F.ctxSwitch save q.ctx k.machine)) q⟩ := by
  obtain ⟨view, hview, hparked, hslot⟩ := hparks.parked next hnext q hq
  subst hparked
  have hstack : stackBytes (F.mem (F.ctxSwitch save q.ctx k.machine)) q =
      stackBytes (F.mem k.machine) q :=
    stackBytes_congr fun a ha => F.mem_ctxSwitch hsave (Set.disjoint_right.mp happart (.inr ha))
  have hregs : F.resumes (F.ctxSwitch save q.ctx k.machine) = F.parked (F.mem k.machine) q.ctx :=
    F.resumes_ctxSwitch hsave q.ctx_le
      (happart.mono_right (Set.union_subset_union_right _ hslot))
  rw [hview, hregs, hstack, parkedView]

/-- A thread that is not involved in a switch stays parked. -/
theorem parked_after_switch (hparks : Parks labels k) {u : Thread} {save load : ℕ}
    (hu : u ∈ k.sched.sched.ready) (hp : k.place u.tid = some p)
    (hleft : lastLeft (labels ++ [label]) u.tid = lastLeft labels u.tid)
    (hsave : save + F.size ≤ 2 ^ 64) (happart : Disjoint (Set.Ico save (save + F.size)) p.cells) :
    ∃ view, lastLeft (labels ++ [label]) u.tid = some view ∧
      ParkedAt (F.mem (F.ctxSwitch save load k.machine)) p view :=
  hparks.parked_snoc hu hp hleft fun _ ha =>
    F.mem_ctxSwitch hsave (Set.disjoint_right.mp happart ha)

section Switches

variable {labels : List (Label Regs)} {k : Kernel F} (hparks : Parks labels k) {sched : System}
  {t next : Thread} {rest : List Thread} {p q : Place F.size}
  (hcurrent : k.sched.sched.current = some t) (hready : k.sched.sched.ready = next :: rest)
  (hp : k.place t.tid = some p)

include hparks hcurrent hready hp

theorem parks_yield {left : View Regs} {found : View Regs}
    (hyield : k.sched.yieldNow = .ok sched) (hslot : F.slot (F.leaves k.machine) ⊆ p.stackCells)
    (hleft : left = ⟨F.leaves k.machine, stackBytes (F.mem k.machine) p⟩) {load : ℕ} :
    Parks (labels ++ [.switched t.tid left next.tid found])
      { k with sched, machine := F.ctxSwitch p.ctx load k.machine } := by
  subst hleft
  have howned := owned_yield hparks.owned hyield
  rw [yieldNow_of_cons hcurrent hready] at hyield
  obtain rfl := Except.ok.inj hyield
  have hself : Disjoint p.ctxCells (F.slot (F.leaves k.machine)) := p.apart.mono_right hslot
  refine ⟨?_, ?_, hparks.apart, ?_⟩
  · rw [List.filterMap_append]
    exact howned
  · intro tid
    show _ ↔ ∃ p, k.place tid = some p
    rw [← hparks.placed]
    simp only [System.tids, System.threads, hcurrent, hready, Option.toList_some, List.map_append,
      List.map_cons, List.map_nil, List.mem_append, List.mem_cons, List.not_mem_nil, or_false]
    tauto
  · intro u hu r hr
    dsimp only at hu hr
    rcases List.mem_append.mp hu with hrest | hlast
    · have hmem : u ∈ k.sched.sched.ready := by
        rw [hready]
        exact List.mem_cons_of_mem _ hrest
      have hne := hparks.ready_ne hcurrent hmem
      have happart := hparks.apart t.tid u.tid p r hne.symm hp hr
      exact parked_after_switch hparks hmem hr (lastLeft_snoc_of_ne rfl hne) p.ctx_le
        (happart.mono_left Set.subset_union_left)
    · -- the thread that left
      obtain rfl := List.mem_singleton.mp hlast
      dsimp only at hr ⊢
      obtain rfl : p = r := Option.some.inj (hp.symm.trans hr)
      refine ⟨_, lastLeft_snoc_self rfl, ?_, hslot⟩
      rw [parkedView, F.parked_ctxSwitch p.ctx_le hself]
      congr 1
      exact stackBytes_congr fun a ha =>
        F.mem_ctxSwitch p.ctx_le (Set.disjoint_right.mp p.apart ha)

theorem parks_exit {found : View Regs} (hboot : t.tid ≠ bootTid)
    (hexit : k.sched.exitCurrent = .ok sched) {tossed : ℕ}
    (htossed : Set.Ico tossed (tossed + F.size) ⊆ p.stackCells) (hlt : tossed + F.size < 2 ^ 64)
    {load : ℕ} :
    Parks (labels ++ [.exited t.tid next.tid found])
      { sched
        machine := F.ctxSwitch tossed load k.machine
        place := Function.update k.place t.tid none } := by
  have howned := owned_exit hparks.owned hcurrent hboot hexit
  rw [exitCurrent_of_cons hready] at hexit
  obtain rfl := Except.ok.inj hexit
  refine ⟨?_, ?_, ?_, ?_⟩
  · rw [List.filterMap_append]
    exact howned
  · intro tid
    have hold := hparks.placed tid
    have hnodup := hparks.owned.tids_nodup
    simp only [System.tids, System.threads, hcurrent, hready, Option.toList_some,
      List.singleton_append, List.map_cons, List.mem_cons] at hold hnodup ⊢
    rw [List.nodup_cons] at hnodup
    by_cases heq : tid = t.tid
    · subst heq
      simp only [Function.update_self, reduceCtorEq, exists_false, iff_false]
      simpa using hnodup.1
    · rw [Function.update_of_ne heq, ← hold]
      simp [heq]
  · intro tid other r s hne hr hs
    dsimp only at hr hs
    rw [Function.update_apply] at hr hs
    split_ifs at hr hs
    exact hparks.apart tid other r s hne hr hs
  · intro u hu r hr
    dsimp only at hu hr
    have hmem : u ∈ k.sched.sched.ready := by
      rw [hready]
      exact List.mem_cons_of_mem _ hu
    have hne := hparks.ready_ne hcurrent hmem
    rw [Function.update_of_ne hne] at hr
    have happart := hparks.apart t.tid u.tid p r hne.symm hp hr
    exact parked_after_switch hparks hmem hr (lastLeft_snoc_of_none rfl) hlt.le
      (happart.mono_left (htossed.trans Set.subset_union_right))

end Switches

/-! ## Whole runs -/

theorem parks_boot (kernelPid : UInt64) (machine : Machine) (p : Place F.size) :
    Parks ([] : List (Label Regs)) (Kernel.boot F kernelPid machine p) := by
  refine ⟨owned_init kernelPid, ?_, ?_, ?_⟩
  · intro tid
    have htids : (System.new kernelPid).init.tids = [bootTid] := rfl
    show tid ∈ (System.new kernelPid).init.tids ↔
        ∃ q, (if tid = bootTid then some p else none) = some q
    rw [htids, List.mem_singleton]
    by_cases heq : tid = bootTid
    · simp [heq]
    · simp [heq]
  · intro tid other q r hne hq hr
    simp only [Kernel.boot, Option.ite_none_right_eq_some] at hq hr
    exact absurd (hq.1.trans hr.1.symm) hne
  · intro u hu
    simp [Kernel.boot, System.init, System.new, System.bootThread, System.allocTid] at hu

theorem step_parks {k next : Kernel F}
    (hcount : (spawned ((labels ++ [label]).filterMap Label.event)).length < 2 ^ 64)
    (hparks : Parks labels k) (hresumed : Resumed labels) (step : KernelStep F k label next) :
    Parks (labels ++ [label]) next ∧ Resumed (labels ++ [label]) := by
  rw [List.filterMap_append] at hcount
  cases step with
  | compute hcurrent hcomputes =>
    exact ⟨parks_compute hparks hcurrent hcomputes, hresumed.snoc (by simp [Label.found])⟩
  | tick =>
    have howned : Owned (labels.filterMap Label.event ++ [.tick]) k.sched.onTick :=
      hparks.owned.of_perm (by simp [spawned]) (by simp [Proc.exited])
        hparks.owned.current_running hparks.owned.ready_state (List.Perm.refl _) rfl
    refine ⟨parks_of_sched hparks ?_ rfl rfl rfl, hresumed.snoc (by simp [Label.found])⟩
    rw [List.filterMap_append]
    exact howned
  | spawn name entry arg hfree hmem =>
    have howned := owned_spawn hparks.owned name (by simpa [Label.event, spawned] using hcount)
    exact ⟨parks_spawn hparks name entry arg hfree hmem howned,
      hresumed.snoc (by simp [Label.found])⟩
  | @idle sched hready hyield =>
    have howned := owned_yield hparks.owned hyield
    rw [yieldNow_of_nil hready] at hyield
    obtain rfl := Except.ok.inj hyield
    refine ⟨parks_of_sched hparks ?_ rfl rfl rfl, hresumed.snoc (by simp [Label.found])⟩
    rw [List.filterMap_append]
    exact howned
  | @yield sched t next rest p q machine hcurrent hready hyield hp hq hslot hmachine =>
    subst hmachine
    have hmem : next ∈ k.sched.sched.ready := by simp [hready]
    have hne := hparks.ready_ne hcurrent hmem
    have happart := hparks.apart t.tid next.tid p q hne.symm hp hq
    refine ⟨parks_yield hparks hcurrent hready hp hyield hslot rfl, hresumed.snoc ?_⟩
    intro tid view hfound
    obtain ⟨rfl, rfl⟩ := Prod.mk.inj (Option.some.inj hfound)
    exact resumes_eq hparks hmem hq p.ctx_le (happart.mono_left Set.subset_union_left)
  | @exit sched t next rest p q machine tossed hcurrent hboot hready hexit hp hq htossed hlt
      hmachine =>
      subst hmachine
      have hmem : next ∈ k.sched.sched.ready := by simp [hready]
      have hne := hparks.ready_ne hcurrent hmem
      have happart := hparks.apart t.tid next.tid p q hne.symm hp hq
      refine ⟨parks_exit hparks hcurrent hready hp hboot hexit htossed hlt, hresumed.snoc ?_⟩
      intro tid view hfound
      obtain ⟨rfl, rfl⟩ := Prod.mk.inj (Option.some.inj hfound)
      exact resumes_eq hparks hmem hq hlt.le
        (happart.mono_left (htossed.trans Set.subset_union_right))

/-- In every run of a kernel with fewer than `2^64` spawns, every thread that gets the processor
finds what it had left. -/
theorem resumed_as_left {kernelPid : UInt64} {machine : Machine}
    (run : Run (KernelStep F) (Kernel.boot F kernelPid machine p) labels k)
    (hcount : (spawned (labels.filterMap Label.event)).length < 2 ^ 64) : Resumed labels := by
  refine (run.history_invariant (fun labels k =>
    (spawned (labels.filterMap Label.event)).length < 2 ^ 64 → Parks labels k ∧ Resumed labels)
    ?_ ?_ hcount).2
  · intro _
    exact ⟨parks_boot kernelPid machine p, fun before label after hnil => by simp at hnil⟩
  · intro labels k label next hinv step hcount
    have hbefore : (spawned (labels.filterMap Label.event)).length < 2 ^ 64 := by
      refine lt_of_le_of_lt ?_ hcount
      rw [List.filterMap_append, spawned, spawned, List.filterMap_append, List.length_append]
      exact Nat.le_add_right ..
    exact step_parks hcount (hinv hbefore).1 (hinv hbefore).2 step

/-- A thread that was spawned starts from the context that `init_context` makes. -/
theorem exists_starts_of_spawned {kernelPid : UInt64} {machine : Machine}
    (run : Run (KernelStep F) (Kernel.boot F kernelPid machine p) labels k) {name : String}
    {tid entry arg : UInt64} {view : View Regs}
    (hspawned : .spawned name tid entry arg view ∈ labels) :
    ∃ top, view.regs = F.starts entry arg top ∧ stackSize ≤ top.toNat := by
  induction run with
  | nil => cases hspawned
  | snoc run step ih =>
    rcases List.mem_append.mp hspawned with hbefore | hlast
    · exact ih hbefore
    · rw [← List.mem_singleton.mp hlast] at step
      cases step with
      | @spawn p machine name entry arg hfree hmem =>
        refine ⟨p.top, rfl, ?_⟩
        rw [p.toNat_top, hfree.len_eq]
        exact Nat.le_add_left ..

/-- A run in which a thread is spawned and the boot thread yields to it. -/
theorem exists_switch (hsize : F.size ≤ 0x1000) {machine started : Machine} {entry arg : UInt64}
    (hmem : F.mem started =
      F.initContext 0x8000 entry arg (UInt64.ofNat (0x10000 + stackSize)) (F.mem machine))
    (hslot : F.slot (F.leaves started) ⊆ Set.Ico 0x2000 0x3000) :
    ∃ p labels k, Run (KernelStep F) (Kernel.boot F 1 machine p) labels k ∧
      (spawned (labels.filterMap Label.event)).length < 2 ^ 64 ∧
      ∃ left found, Label.switched 1 left 2 found ∈ labels := by
  let p : Place F.size := ⟨0x1000, 0x2000, 0x1000, by omega, by omega, by
    rw [Set.Ico_disjoint_Ico]; omega⟩
  let q : Place F.size := ⟨0x8000, 0x10000, stackSize, by omega, by decide, by
    rw [Set.Ico_disjoint_Ico]; omega⟩
  have hfree : Free F (Kernel.boot F 1 machine p) q := by
    refine ⟨rfl, fun other r hr => ?_⟩
    obtain ⟨-, hr⟩ := Option.ite_none_right_eq_some.mp hr
    obtain rfl := Option.some.inj hr
    simp only [Place.cells, Place.ctxCells, Place.stackCells, Set.disjoint_union_left,
      Set.disjoint_union_right, Set.Ico_disjoint_Ico, p, q, stackSize]
    omega
  have hspawn := KernelStep.spawn "shell" entry arg hfree hmem
  let ready : Kernel F :=
    { sched := ((Kernel.boot F 1 machine p).sched.spawn "shell").2
      machine := started
      place := Function.update (Kernel.boot F 1 machine p).place 2 (some q) }
  have hyield := KernelStep.yield (k := ready) (p := p) (q := q) rfl rfl rfl rfl rfl hslot rfl
  exact ⟨p, _, _, (Run.nil.snoc hspawn).snoc hyield, Nat.one_lt_two_pow (by norm_num), _, _,
    List.mem_append_right _ (List.mem_singleton_self _)⟩

end Kernel

end Hyperion.Proc
