import Hyperion.Lib.A64
import Hyperion.Syscall.Dispatch

/-!
# Exceptions on aarch64

`arch/aarch64/exceptions.rs`.  The vector of an exception saves all general registers in a
`TrapFrame` on the kernel stack, calls a handler with the address of the frame, and restores the
registers from the frame.  The code uses `x9`, `x10` and `x11` for the system registers, after it
has saved them and before it loads them.

The handlers are compiled code.  What the vectors rely on is that they keep the stack pointer, and
what they leave in the frame.  All other registers and the rest of memory may change.  Among them
are the registers for floating point and vectors, which the vectors neither save nor restore.
-/

namespace Hyperion.Aarch64

open Hyperion.Lib Hyperion.Syscall A64

/-- `TrapFrame`, 36 words. -/
structure TrapFrame where
  regs : Fin 31 → UInt64
  sp : UInt64
  elr : UInt64
  spsr : UInt64
  esr : UInt64
  far : UInt64

namespace TrapFrame

/-- The frame at an address. -/
def load (mem : Memory) (addr : ℕ) : TrapFrame where
  regs := fun n => mem.load64 (addr + 8 * n)
  sp := mem.load64 (addr + 248)
  elr := mem.load64 (addr + 256)
  spsr := mem.load64 (addr + 264)
  esr := mem.load64 (addr + 272)
  far := mem.load64 (addr + 280)

/-- The registers at the time of the exception. -/
def ofState (s : State) : TrapFrame where
  regs := fun n => s.reg (.x n)
  sp := s.sys .spEl0
  elr := s.sys .elrEl1
  spsr := s.sys .spsrEl1
  esr := s.sys .esrEl1
  far := s.sys .farEl1

end TrapFrame

/-! ## The code of the vectors -/

/-- `SAVE_REGS`. -/
def saveRegs : List Instr :=
  [ .subImm .sp .sp (32 * 8 + 4 * 8),
    .stp (.x 0) (.x 1) .sp (0 * 16),
    .stp (.x 2) (.x 3) .sp (1 * 16),
    .stp (.x 4) (.x 5) .sp (2 * 16),
    .stp (.x 6) (.x 7) .sp (3 * 16),
    .stp (.x 8) (.x 9) .sp (4 * 16),
    .stp (.x 10) (.x 11) .sp (5 * 16),
    .stp (.x 12) (.x 13) .sp (6 * 16),
    .stp (.x 14) (.x 15) .sp (7 * 16),
    .stp (.x 16) (.x 17) .sp (8 * 16),
    .stp (.x 18) (.x 19) .sp (9 * 16),
    .stp (.x 20) (.x 21) .sp (10 * 16),
    .stp (.x 22) (.x 23) .sp (11 * 16),
    .stp (.x 24) (.x 25) .sp (12 * 16),
    .stp (.x 26) (.x 27) .sp (13 * 16),
    .stp (.x 28) (.x 29) .sp (14 * 16),
    .mrs (.x 9) .spEl0,
    .stp (.x 30) (.x 9) .sp (15 * 16),
    .mrs (.x 10) .elrEl1,
    .mrs (.x 11) .spsrEl1,
    .stp (.x 10) (.x 11) .sp (16 * 16),
    .mrs (.x 10) .esrEl1,
    .mrs (.x 11) .farEl1,
    .stp (.x 10) (.x 11) .sp (17 * 16) ]

/-- `RESTORE_REGS`. -/
def restoreRegs : List Instr :=
  [ .ldp (.x 10) (.x 11) .sp (16 * 16),
    .msr .elrEl1 (.x 10),
    .msr .spsrEl1 (.x 11),
    .ldp (.x 30) (.x 9) .sp (15 * 16),
    .msr .spEl0 (.x 9),
    .ldp (.x 28) (.x 29) .sp (14 * 16),
    .ldp (.x 26) (.x 27) .sp (13 * 16),
    .ldp (.x 24) (.x 25) .sp (12 * 16),
    .ldp (.x 22) (.x 23) .sp (11 * 16),
    .ldp (.x 20) (.x 21) .sp (10 * 16),
    .ldp (.x 18) (.x 19) .sp (9 * 16),
    .ldp (.x 16) (.x 17) .sp (8 * 16),
    .ldp (.x 14) (.x 15) .sp (7 * 16),
    .ldp (.x 12) (.x 13) .sp (6 * 16),
    .ldp (.x 10) (.x 11) .sp (5 * 16),
    .ldp (.x 8) (.x 9) .sp (4 * 16),
    .ldp (.x 6) (.x 7) .sp (3 * 16),
    .ldp (.x 4) (.x 5) .sp (2 * 16),
    .ldp (.x 2) (.x 3) .sp (1 * 16),
    .ldp (.x 0) (.x 1) .sp (0 * 16),
    .addImm .sp .sp (32 * 8 + 4 * 8) ]

/-- A vector up to the call of its handler, which gets the address of the frame. -/
def enterVector (s : State) : State := run (saveRegs ++ [.mov (.x 0) .sp]) s

/-- A vector after the call of its handler. -/
def leaveVector (s : State) : State := run (restoreRegs ++ [.eret]) s

/-- The handler that a vector calls; `unhandled` has its second argument. -/
inductive Handler where
  | sync
  | irq
  | unhandled (kind : UInt64)
  deriving DecidableEq, Repr

/-- `__vectors`: four groups of four entries.  The groups are the current level with `SP_EL0`, the
current level with its own stack pointer, a lower level in aarch64, and a lower level in aarch32;
the entries of a group are synchronous exceptions, IRQs, FIQs and SErrors. -/
def vectors : Vector Handler 16 :=
  #v[ .unhandled 0, .unhandled 0, .unhandled 0, .unhandled 0,
    .sync, .irq, .irq, .unhandled 1,
    .sync, .irq, .irq, .unhandled 2,
    .unhandled 0, .unhandled 0, .unhandled 0, .unhandled 0 ]

/-! ## The handlers -/

/-- How a handler ends: with a frame to return to, with a system call that does not return, or
in a panic. -/
inductive Trap (World : Type) where
  | resumed (frame : TrapFrame) (world : World)
  | gone (outcome : Outcome World)
  | panicked

/-- The exception class, bits 31 to 26 of the syndrome. -/
def exceptionClass (esr : UInt64) : UInt64 := (esr >>> 26) &&& 0x3f

/-- `hyperion_trap_sync`. -/
def trapSync {World : Type} (services : Services World) (frame : TrapFrame) (world : World) :
    Trap World :=
  if exceptionClass frame.esr = 0x15 then
    match dispatch services (frame.regs 8) (fun i => frame.regs ⟨i, by omega⟩) world with
    | .returned ret world =>
      .resumed { frame with regs := Function.update frame.regs 0 ret.toUInt64 } world
    | outcome => .gone outcome
  else .panicked

/-- What the handler of a vector does.  The handler of interrupts does not touch the frame. -/
def Handler.call {World : Type} (services : Services World) (handleIrq : World → World)
    (handler : Handler) (frame : TrapFrame) (world : World) : Trap World :=
  match handler with
  | .sync => trapSync services frame world
  | .irq => .resumed frame (handleIrq world)
  | .unhandled _ => .panicked

/-- A handler was called in state `s` and returned in state `s'`, with `frame` in the place of the
frame it was given. -/
structure Handled (s s' : State) (frame : TrapFrame) : Prop where
  sp_eq : s'.reg .sp = s.reg .sp
  frame_eq : TrapFrame.load s'.mem (s.reg (.x 0)).toNat = frame

/-! ## What the vectors do -/

theorem enterVector_sp (s : State) : (enterVector s).reg .sp = s.reg .sp - 288 := rfl

theorem enterVector_x0 (s : State) : (enterVector s).reg (.x 0) = s.reg .sp - 288 := rfl

/-- The 36 words of the frame, in order. -/
def frameWords (s : State) : List UInt64 :=
  List.ofFn (fun n => s.reg (.x n)) ++
    [s.sys .spEl0, s.sys .elrEl1, s.sys .spsrEl1, s.sys .esrEl1, s.sys .farEl1]

set_option maxRecDepth 2000 in
theorem enterVector_mem (s : State) :
    (enterVector s).mem = s.mem.storeWords (s.reg .sp - 288).toNat (frameWords s) := by
  rfl

/-- The handler finds the registers at the time of the exception. -/
theorem load_enterVector (s : State) :
    TrapFrame.load (enterVector s).mem ((enterVector s).reg (.x 0)).toNat =
      TrapFrame.ofState s := by
  have hwords : (enterVector s).mem.loadWords (s.reg .sp - 288).toNat 36 = frameWords s := by
    rw [enterVector_mem]
    exact Memory.loadWords_storeWords ..
  have hregs : ∀ n : Fin 31, (enterVector s).mem.load64 ((s.reg .sp - 288).toNat + 8 * n) =
      s.reg (.x n) := by
    intro n
    refine Memory.load64_of_loadWords hwords (by omega) ?_
    fin_cases n <;> rfl
  have hword : ∀ (i : ℕ) (word : UInt64), i < 36 → (frameWords s)[i]? = some word →
      (enterVector s).mem.load64 ((s.reg .sp - 288).toNat + 8 * i) = word :=
    fun _ _ => Memory.load64_of_loadWords hwords
  rw [enterVector_x0, TrapFrame.load, TrapFrame.ofState, TrapFrame.mk.injEq]
  exact ⟨funext hregs, hword 31 _ (by decide) rfl, hword 32 _ (by decide) rfl,
    hword 33 _ (by decide) rfl, hword 34 _ (by decide) rfl, hword 35 _ (by decide) rfl⟩

theorem leaveVector_reg (s : State) (n : Fin 31) :
    (leaveVector s).reg (.x n) = s.mem.load64 ((s.reg .sp).toNat + 8 * n) := by
  fin_cases n <;> rfl

/-- What the interrupted program finds when the vector is left: its registers as they are in the
frame that the handler left. -/
structure Returned (s : State) (frame : TrapFrame) : Prop where
  regs : ∀ n, s.reg (.x n) = frame.regs n
  spEl0 : s.sys .spEl0 = frame.sp
  pc : s.pc = frame.elr
  elr : s.sys .elrEl1 = frame.elr
  spsr : s.sys .spsrEl1 = frame.spsr

theorem returned_of_handled {s s' : State} {frame : TrapFrame}
    (hhandled : Handled (enterVector s) s' frame) :
    Returned (leaveVector s') frame ∧ (leaveVector s').reg .sp = s.reg .sp := by
  obtain ⟨hsp, rfl⟩ := hhandled
  rw [enterVector_sp] at hsp
  have haddr : (s'.reg .sp).toNat = ((enterVector s).reg (.x 0)).toNat := by
    rw [hsp, enterVector_x0]
  refine ⟨⟨?_, ?_, ?_, ?_, ?_⟩, ?_⟩
  · intro n
    rw [leaveVector_reg, haddr]
    rfl
  · exact congrArg (fun a => s'.mem.load64 (a + 248)) haddr
  · exact congrArg (fun a => s'.mem.load64 (a + 256)) haddr
  · exact congrArg (fun a => s'.mem.load64 (a + 256)) haddr
  · exact congrArg (fun a => s'.mem.load64 (a + 264)) haddr
  · show s'.reg .sp + 288 = s.reg .sp
    rw [hsp]
    exact UInt64.sub_add_cancel ..

/-- The only synchronous exceptions that return are system calls, and all they change in the frame
is the first register. -/
theorem trapSync_eq_resumed {World : Type} {services : Services World} {frame frame' : TrapFrame}
    {world world' : World} (htrap : trapSync services frame world = .resumed frame' world') :
    exceptionClass frame.esr = 0x15 ∧ ∃ ret,
      dispatch services (frame.regs 8) (fun i => frame.regs ⟨i, by omega⟩) world =
        .returned ret world' ∧
      frame' = { frame with regs := Function.update frame.regs 0 ret.toUInt64 } := by
  unfold trapSync at htrap
  split_ifs at htrap with hclass
  refine ⟨hclass, ?_⟩
  split at htrap
  · next ret world hdispatch =>
      obtain ⟨rfl, rfl⟩ := Trap.resumed.inj htrap
      exact ⟨ret, hdispatch, rfl⟩
  · cases htrap

/-- **Exceptions return to where they came from.**  Whichever of the 16 vectors is taken, in
whatever state, and whatever the compiled handler does to the registers and to the rest of memory:
if the handler returns, then the interrupted program continues at the address and with the processor
state it had, with the same stack pointers and the same general registers `x1` to `x30`.  An
interrupt keeps `x0` as well.  A system call was made by an `SVC`; it is dispatched with the number
in `x8` and the arguments in `x0` to `x5`, and `x0` has its result, which is -1 for an unknown
number.  Nothing is kept of the registers for floating point and vectors: the handler gets those of
the program, and the program those that the handler leaves. -/
theorem exceptions_return {World : Type} (services : Services World) (handleIrq : World → World)
    (i : Fin 16) (s s' : State) (world world' : World) (frame : TrapFrame)
    (hcall : (vectors.get i).call services handleIrq
      (TrapFrame.load (enterVector s).mem ((enterVector s).reg (.x 0)).toNat) world =
        .resumed frame world')
    (hhandled : Handled (enterVector s) s' frame) :
    (leaveVector s').pc = s.sys .elrEl1 ∧
    (leaveVector s').sys .spsrEl1 = s.sys .spsrEl1 ∧
    (leaveVector s').sys .spEl0 = s.sys .spEl0 ∧
    (leaveVector s').reg .sp = s.reg .sp ∧
    (∀ n : Fin 31, n ≠ 0 → (leaveVector s').reg (.x n) = s.reg (.x n)) ∧
    ((enterVector s).fp = s.fp ∧ (leaveVector s').fp = s'.fp) ∧
    (vectors.get i = .irq ∧ (leaveVector s').reg (.x 0) = s.reg (.x 0) ∧
        world' = handleIrq world ∨
      vectors.get i = .sync ∧ exceptionClass (s.sys .esrEl1) = 0x15 ∧
        ∃ ret, dispatch services (s.reg (.x 8)) (fun i => s.reg (.x ⟨i, by omega⟩)) world =
            .returned ret world' ∧
          (leaveVector s').reg (.x 0) = ret.toUInt64 ∧
          (SyscallNr.tryFrom (s.reg (.x 8)) = none → ret = -1 ∧ world' = world)) := by
  rw [load_enterVector] at hcall
  obtain ⟨hreturned, hsp⟩ := returned_of_handled hhandled
  have hfp : (enterVector s).fp = s.fp ∧ (leaveVector s').fp = s'.fp := ⟨run_fp .., run_fp ..⟩
  cases hhandler : vectors.get i with
  | irq =>
    rw [hhandler] at hcall
    obtain ⟨rfl, rfl⟩ := Trap.resumed.inj hcall
    exact ⟨hreturned.pc, hreturned.spsr, hreturned.spEl0, hsp, fun n _ => hreturned.regs n, hfp,
      Or.inl ⟨rfl, hreturned.regs 0, rfl⟩⟩
  | sync =>
    rw [hhandler] at hcall
    obtain ⟨hclass, ret, hdispatch, rfl⟩ := trapSync_eq_resumed hcall
    refine ⟨hreturned.pc, hreturned.spsr, hreturned.spEl0, hsp, ?_, hfp,
      Or.inr ⟨rfl, hclass, ret, hdispatch, ?_, ?_⟩⟩
    · intro n hn
      rw [hreturned.regs n]
      exact Function.update_of_ne hn ..
    · rw [hreturned.regs 0]
      dsimp only
      exact Function.update_self ..
    · intro hnone
      have hunknown := dispatch_of_none services hnone
        (fun i => s.reg (.x ⟨i, by omega⟩)) world
      obtain ⟨rfl, rfl⟩ := Outcome.returned.inj (hunknown.symm.trans hdispatch)
      exact ⟨rfl, rfl⟩
  | unhandled kind =>
    rw [hhandler] at hcall
    cases hcall

/-- A program at EL0 prints a letter. -/
theorem exceptions_return_putchar :
    ∃ (services : Services (List UInt8)) (s s' : State),
      vectors.get 8 = .sync ∧ s.reg (.x 8) = SyscallNr.putChar.toUInt64 ∧ s.reg (.x 0) = 65 ∧
      (leaveVector s').pc = s.sys .elrEl1 ∧
      (∀ n : Fin 31, n ≠ 0 → (leaveVector s').reg (.x n) = s.reg (.x n)) ∧
      ∃ ret, dispatch services (s.reg (.x 8)) (fun i => s.reg (.x ⟨i, by omega⟩)) [] =
          .returned ret [65] ∧
        (leaveVector s').reg (.x 0) = ret.toUInt64 := by
  let services : Services (List UInt8) :=
    ⟨id, fun b out => out ++ [b], fun out => (0, out), fun _ => 1, fun _ => 0⟩
  let s : State :=
    { reg := fun r => if r = .x 8 then 2 else if r = .x 0 then 65 else 0x8000
      fp := ⟨fun _ => 0, 0, 0⟩
      sys := fun r => if r = .esrEl1 then 0x56000000 else 0x1000
      pc := 0
      mem := fun _ => 0 }
  have hcall : (vectors.get 8).call services id
      (TrapFrame.load (enterVector s).mem ((enterVector s).reg (.x 0)).toNat) [] =
        .resumed (TrapFrame.ofState (s.set (.x 0) 0)) [65] := by
    rw [load_enterVector]
    have hregs : (TrapFrame.ofState (s.set (.x 0) 0)).regs =
        Function.update (TrapFrame.ofState s).regs 0 0 := by
      funext n
      fin_cases n <;> rfl
    have hframe : TrapFrame.ofState (s.set (.x 0) 0) =
        { TrapFrame.ofState s with regs := Function.update (TrapFrame.ofState s).regs 0 0 } := by
      rw [← hregs]
      rfl
    have hclass : exceptionClass (TrapFrame.ofState s).esr = 0x15 := by decide
    show trapSync services (TrapFrame.ofState s) [] = _
    rw [hframe, trapSync, if_pos hclass]
    rfl
  have hhandled : Handled (enterVector s) (enterVector (s.set (.x 0) 0))
      (TrapFrame.ofState (s.set (.x 0) 0)) := by
    have hsp : (s.set (.x 0) 0).reg .sp = s.reg .sp := rfl
    have hload := load_enterVector (s.set (.x 0) 0)
    refine ⟨?_, ?_⟩
    · rw [enterVector_sp, enterVector_sp, hsp]
    · rwa [enterVector_x0, hsp, ← enterVector_x0] at hload
  obtain ⟨hpc, -, -, -, hregs, -, hirq | ⟨-, -, ret, hret, hx0, -⟩⟩ :=
    exceptions_return services id 8 s (enterVector (s.set (.x 0) 0)) [] [65] _ hcall hhandled
  · exact absurd hirq.1 (by decide)
  · exact ⟨services, s, _, rfl, rfl, rfl, hpc, hregs, ret, hret, hx0⟩

end Hyperion.Aarch64
