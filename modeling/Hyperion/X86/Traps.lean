import Hyperion.Lib.Amd64
import Hyperion.Lib.Word
import Hyperion.Syscall.Dispatch

/-!
# Interrupts on x86-64

The stubs of `arch/x86_64/isr_stubs.s`, and `__trap_common` and the handlers of
`arch/x86_64/exceptions.rs`.  For some vectors the processor pushes an error code; the stubs of the
others push a zero in its place, so that one `TrapFrame` fits all.  The vector decides which of the
three handlers is called.  When it returns, the registers are popped from the frame.

The handlers are compiled code: they keep the stack pointer, and what counts is the frame they
leave.
-/

namespace Hyperion.X86

open Hyperion.Lib Hyperion.Syscall Amd64

/-- `TrapFrame`, 22 words. -/
structure TrapFrame where
  regs : Fin 15 → UInt64
  vector : UInt64
  errorCode : UInt64
  rip : UInt64
  cs : UInt64
  rflags : UInt64
  rsp : UInt64
  ss : UInt64

/-- The frame at an address. -/
def TrapFrame.load (mem : Memory) (addr : ℕ) : TrapFrame where
  regs := fun n => mem.load64 (addr + 8 * n)
  vector := mem.load64 (addr + 8 * 15)
  errorCode := mem.load64 (addr + 8 * 16)
  rip := mem.load64 (addr + 8 * 17)
  cs := mem.load64 (addr + 8 * 18)
  rflags := mem.load64 (addr + 8 * 19)
  rsp := mem.load64 (addr + 8 * 20)
  ss := mem.load64 (addr + 8 * 21)

/-- The register with an index in `TrapFrame::regs`. -/
def frameReg : Vector Reg 15 :=
  #v[.rax, .rbx, .rcx, .rdx, .rsi, .rdi, .rbp, .r8, .r9, .r10, .r11, .r12, .r13, .r14, .r15]

namespace Index

def rax : Fin 15 := 0
def rdx : Fin 15 := 3
def rsi : Fin 15 := 4
def rdi : Fin 15 := 5
def r8 : Fin 15 := 7
def r9 : Fin 15 := 8
def r10 : Fin 15 := 9

end Index

/-! ## The code of the stubs -/

/-- The vectors whose stubs push no error code: those of `ISR_ERR`. -/
def errorVectors : List ℕ := [8, 10, 11, 12, 13, 14, 17, 21, 29, 30]

/-- The stub of a vector. -/
def isrStub (vector : Fin 256) : List Instr :=
  if vector.val ∈ errorVectors then [.pushImm (UInt64.ofNat vector)]
  else [.pushImm 0, .pushImm (UInt64.ofNat vector)]

/-- `__trap_common` up to the choice of the handler. -/
def pushRegs : List Instr :=
  [ .push .r15, .push .r14, .push .r13, .push .r12, .push .r11, .push .r10, .push .r9, .push .r8,
    .push .rbp, .push .rdi, .push .rsi, .push .rdx, .push .rcx, .push .rbx, .push .rax ]

/-- `__trap_return`. -/
def trapReturn : List Instr :=
  [ .pop .rax, .pop .rbx, .pop .rcx, .pop .rdx, .pop .rsi, .pop .rdi, .pop .rbp, .pop .r8, .pop .r9,
    .pop .r10, .pop .r11, .pop .r12, .pop .r13, .pop .r14, .pop .r15 ] ++
  [ .addImm .rsp 16, .iretq ]

/-- The processor takes the interrupt, without a change of privilege, and the stub runs up to the
call of the handler.  The processor pushes an error code only for a vector that has one. -/
def enterTrap (vector : Fin 256) (error : UInt64) (s : State) : State :=
  run (isrStub vector ++ pushRegs)
    (s.interrupt (if HasErrorCode vector then some error else none))

def leaveTrap (s : State) : State := run trapReturn s

inductive Handler where
  | exception
  | irq
  | spurious
  deriving DecidableEq, Repr

/-- The comparisons of `__trap_common`. -/
def handlerOf (vector : UInt64) : Handler :=
  if vector = 0xff then .spurious
  else if vector = 0x80 then .exception
  else if vector < 0x20 then .exception
  else .irq

/-! ## The handlers -/

inductive Trap (World : Type) where
  | resumed (frame : TrapFrame) (world : World)
  | gone (outcome : Outcome World)
  | panicked

/-- What the handler of interrupts calls. -/
structure IrqServices (World : Type) where
  /-- `timer::on_tick`, then `scheduler::on_tick` -/
  onTick : World → World
  unrouted : UInt8 → World → World
  eoi : World → World

section Handlers

variable {World : Type}

/-- `hyperion_x86_trap_exception`. -/
def trapException (services : Services World) (frame : TrapFrame) (world : World) : Trap World :=
  if frame.vector = 0x80 then
    match dispatch services (frame.regs Index.rax)
      ![frame.regs Index.rdi, frame.regs Index.rsi, frame.regs Index.rdx, frame.regs Index.r10,
        frame.regs Index.r8, frame.regs Index.r9] world with
    | .returned ret world =>
      .resumed { frame with regs := Function.update frame.regs Index.rax ret.toUInt64 } world
    | outcome => .gone outcome
  else .panicked

/-- `hyperion_x86_trap_irq`. -/
def trapIrq (irqs : IrqServices World) (frame : TrapFrame) (world : World) : Trap World :=
  let v := frame.vector.toUInt8
  let world := if v = 0x20 then irqs.onTick world else irqs.unrouted v world
  .resumed frame (irqs.eoi world)

def Handler.call (services : Services World) (irqs : IrqServices World) (handler : Handler)
    (frame : TrapFrame) (world : World) : Trap World :=
  match handler with
  | .exception => trapException services frame world
  | .irq => trapIrq irqs frame world
  -- `hyperion_x86_trap_spurious` does nothing, and there is no end of interrupt to signal
  | .spurious => .resumed frame world

end Handlers

/-- A handler was called in state `s` and returned in state `s'`, with `frame` in the place of the
frame it was given. -/
structure Handled (s s' : State) (frame : TrapFrame) : Prop where
  rsp_eq : s'.reg .rsp = s.reg .rsp
  frame_eq : TrapFrame.load s'.mem (s.reg .rsp).toNat = frame

/-! ## What the stubs do -/

/-- The stubs and the processor agree on the vectors with an error code. -/
theorem mem_errorVectors_iff (vector : ℕ) : vector ∈ errorVectors ↔ HasErrorCode vector := by
  simp only [errorVectors, HasErrorCode, List.mem_cons, List.not_mem_nil, or_false]
  omega

/-- The error code in the frame. -/
def frameError (vector : Fin 256) (error : UInt64) : UInt64 :=
  if HasErrorCode vector then error else 0

/-- The interrupted program in a frame. -/
def TrapFrame.ofState (vector : Fin 256) (error : UInt64) (s : State) : TrapFrame where
  regs := fun n => s.reg (frameReg.get n)
  vector := UInt64.ofNat vector
  errorCode := frameError vector error
  rip := s.rip
  cs := s.cs
  rflags := s.rflags
  rsp := s.reg .rsp
  ss := s.ss

/-- The words of the frame, in the order they are pushed. -/
def pushedWords (vector : Fin 256) (error : UInt64) (s : State) : List UInt64 :=
  [ s.ss, s.reg .rsp, s.rflags, s.cs, s.rip, frameError vector error, UInt64.ofNat vector,
    s.reg .r15, s.reg .r14, s.reg .r13, s.reg .r12, s.reg .r11, s.reg .r10, s.reg .r9, s.reg .r8,
    s.reg .rbp, s.reg .rdi, s.reg .rsi, s.reg .rdx, s.reg .rcx, s.reg .rbx, s.reg .rax ]

/-- The processor after it has aligned the stack pointer and masked interrupts. -/
def aligned (s : State) : State :=
  { s.set .rsp (s.reg .rsp &&& ~~~0xf) with rflags := s.rflags &&& ~~~0x200 }

/-- The registers of a frame without the stack pointer, in the order they are pushed. -/
def pushedRegs : List Reg :=
  [.r15, .r14, .r13, .r12, .r11, .r10, .r9, .r8, .rbp, .rdi, .rsi, .rdx, .rcx, .rbx, .rax]

/-- With an error code or without one, the same words are pushed. -/
theorem enterTrap_eq (vector : Fin 256) (error : UInt64) (s : State) :
    enterTrap vector error s = (aligned s).pushAll (pushedWords vector error s) := by
  have hhead : run (isrStub vector)
      (s.interrupt (if HasErrorCode vector then some error else none)) =
      (aligned s).pushAll [s.ss, s.reg .rsp, s.rflags, s.cs, s.rip, frameError vector error,
        UInt64.ofNat vector] := by
    have hstub := mem_errorVectors_iff vector
    unfold isrStub frameError
    by_cases herror : HasErrorCode vector
    · simp only [if_pos herror, if_pos (hstub.mpr herror)]
      rfl
    · simp only [if_neg herror, if_neg (mt hstub.mp herror)]
      rfl
  have hregs : ∀ words, pushedRegs.map ((aligned s).pushAll words).reg = pushedRegs.map s.reg := by
    intro words
    refine List.map_congr_left fun r hr => ?_
    have hne : r ≠ .rsp := fun heq => absurd (heq ▸ hr) (by decide)
    exact (pushAll_reg_of_ne hne ..).trans (set_reg_of_ne s _ hne)
  rw [enterTrap, run_append, hhead, show pushRegs = pushedRegs.map Instr.push from rfl,
    run_pushes (by decide), hregs, ← pushAll_append]
  rfl

theorem length_pushedWords (vector : Fin 256) (error : UInt64) (s : State) :
    (pushedWords vector error s).length = 22 := rfl

section Enter

variable (vector : Fin 256) (error : UInt64) {s : State} (hroom : 192 ≤ (s.reg .rsp).toNat)

theorem toNat_aligned_rsp (s : State) :
    ((aligned s).reg .rsp).toNat = (s.reg .rsp).toNat / 2 ^ 4 * 2 ^ 4 := by
  have hrsp : (aligned s).reg .rsp = s.reg .rsp &&& ~~~0xf :=
    set_reg_self s .rsp (s.reg .rsp &&& ~~~0xf)
  rw [hrsp]
  exact toNat_and_not_mask rfl

include hroom

/-- The frame takes 176 bytes, so that the stack pointer is still aligned. -/
theorem toNat_enterTrap_rsp :
    ((enterTrap vector error s).reg .rsp).toNat = (s.reg .rsp).toNat / 2 ^ 4 * 2 ^ 4 - 176 := by
  have hpush := (stack_pushAll (pushedWords vector error s) (aligned s) (by
    rw [length_pushedWords, toNat_aligned_rsp]
    omega)).1
  rw [enterTrap_eq, hpush, length_pushedWords, toNat_aligned_rsp]

/-- The handler finds the interrupted program in the frame. -/
theorem load_enterTrap :
    TrapFrame.load (enterTrap vector error s).mem ((enterTrap vector error s).reg .rsp).toNat =
      TrapFrame.ofState vector error s := by
  have hstack := (stack_pushAll (pushedWords vector error s) (aligned s) (by
    rw [length_pushedWords, toNat_aligned_rsp]
    omega)).2
  rw [← enterTrap_eq, length_pushedWords] at hstack
  have hword : ∀ (i : ℕ) (word : UInt64), i < 22 →
      (pushedWords vector error s).reverse[i]? = some word →
      (enterTrap vector error s).mem.load64
        (((enterTrap vector error s).reg .rsp).toNat + 8 * i) = word :=
    fun _ _ => Memory.load64_of_loadWords hstack
  have hregs : ∀ n : Fin 15, (enterTrap vector error s).mem.load64
      (((enterTrap vector error s).reg .rsp).toNat + 8 * n) = s.reg (frameReg.get n) := by
    intro n
    refine hword n _ (by omega) ?_
    fin_cases n <;> rfl
  rw [TrapFrame.load, TrapFrame.ofState, TrapFrame.mk.injEq]
  exact ⟨funext hregs, hword 15 _ (by decide) rfl, hword 16 _ (by decide) rfl,
    hword 17 _ (by decide) rfl, hword 18 _ (by decide) rfl, hword 19 _ (by decide) rfl,
    hword 20 _ (by decide) rfl, hword 21 _ (by decide) rfl⟩

end Enter

/-- A program continues as a frame says. -/
structure Returned (s : State) (frame : TrapFrame) : Prop where
  regs : ∀ n, s.reg (frameReg.get n) = frame.regs n
  rip : s.rip = frame.rip
  cs : s.cs = frame.cs
  rflags : s.rflags = frame.rflags
  rsp : s.reg .rsp = frame.rsp
  ss : s.ss = frame.ss

theorem exec_iretq_reg (s : State) :
    (exec .iretq s).reg = Function.update s.reg .rsp (s.above 24) := rfl

/-- Leaving a trap takes everything from the frame. -/
theorem returned_leaveTrap {s : State} (hroom : (s.reg .rsp).toNat + 176 < 2 ^ 64) :
    Returned (leaveTrap s) (TrapFrame.load s.mem (s.reg .rsp).toNat) := by
  have hnodup : frameReg.toList.Nodup := by decide
  obtain ⟨hsame, hrsp, hregs⟩ := run_pops hnodup (by decide) s (by
    show _ + 8 * 15 < _
    omega)
  have hleave : leaveTrap s =
      run [.addImm .rsp 16, .iretq] (run (frameReg.toList.map Instr.pop) s) :=
    run_append ..
  generalize run (frameReg.toList.map Instr.pop) s = popped at hsame hrsp hregs hleave
  have hmem : popped.mem = s.mem := by rw [hsame]
  have hbase : (popped.reg .rsp + 16).toNat = (s.reg .rsp).toNat + 8 * 17 := by
    have hfits : (s.reg .rsp).toNat + 8 * 15 + 16 < 2 ^ 64 := by omega
    rw [UInt64.toNat_add, hrsp]
    exact (Nat.mod_eq_of_lt hfits).trans (by omega)
  -- the stack pointer is past the vector and the error code when `iretq` pops its five words
  obtain ⟨added, hadded⟩ : ∃ added, added = popped.set .rsp (popped.reg .rsp + 16) := ⟨_, rfl⟩
  have hiretq : leaveTrap s = exec .iretq added := by rw [hleave, hadded]; rfl
  have hword : ∀ offset, added.above offset =
      s.mem.load64 ((s.reg .rsp).toNat + 8 * 17 + offset) := by
    intro offset
    have haddedMem : added.mem = s.mem := by rw [hadded, ← hmem]; rfl
    have haddedRsp : added.reg .rsp = popped.reg .rsp + 16 := by rw [hadded, set_reg_self]
    rw [State.above, haddedMem, haddedRsp, hbase]
  rw [hiretq]
  refine ⟨?_, hword 0, hword 8, hword 16, ?_, hword 32⟩
  · intro n
    have hne : frameReg.get n ≠ .rsp := by fin_cases n <;> decide
    have hpopped : popped.reg (frameReg.get n) = s.mem.load64 ((s.reg .rsp).toNat + 8 * n) :=
      hregs n _ (by fin_cases n <;> rfl)
    rw [exec_iretq_reg, Function.update_of_ne hne, hadded, set_reg_of_ne _ _ hne, hpopped]
    rfl
  · rw [exec_iretq_reg, Function.update_self]
    exact hword 24

section Return

variable {World : Type} {services : Services World} {irqs : IrqServices World}

/-- The only exceptions that return are system calls, and all they change in the frame is the
register of the result. -/
theorem trapException_eq_resumed {frame frame' : TrapFrame} {world world' : World}
    (htrap : trapException services frame world = .resumed frame' world') :
    frame.vector = 0x80 ∧ ∃ ret,
      dispatch services (frame.regs Index.rax)
        ![frame.regs Index.rdi, frame.regs Index.rsi, frame.regs Index.rdx, frame.regs Index.r10,
          frame.regs Index.r8, frame.regs Index.r9] world = .returned ret world' ∧
      frame' = { frame with regs := Function.update frame.regs Index.rax ret.toUInt64 } := by
  unfold trapException at htrap
  split_ifs at htrap with hvector
  refine ⟨hvector, ?_⟩
  split at htrap
  · next ret world hdispatch =>
      obtain ⟨rfl, rfl⟩ := Trap.resumed.inj htrap
      exact ⟨ret, hdispatch, rfl⟩
  · cases htrap

/-- What a handler that returns did to the world, and the result it left in the frame. -/
def Effect (services : Services World) (irqs : IrqServices World) (vector : Fin 256) (s : State)
    (result : UInt64) (world world' : World) : Prop :=
  vector = 0xff ∧ result = s.reg .rax ∧ world' = world ∨
  vector = 0x20 ∧ result = s.reg .rax ∧ world' = irqs.eoi (irqs.onTick world) ∨
  (0x20 < vector ∧ vector < 0xff ∧ vector ≠ 0x80) ∧ result = s.reg .rax ∧
    world' = irqs.eoi (irqs.unrouted (UInt8.ofNat vector) world) ∨
  vector = 0x80 ∧ ∃ ret,
    dispatch services (s.reg .rax)
      ![s.reg .rdi, s.reg .rsi, s.reg .rdx, s.reg .r10, s.reg .r8, s.reg .r9] world =
        .returned ret world' ∧
    result = ret.toUInt64

/-- The handlers by the number of the vector. -/
theorem handlerOf_vector (vector : Fin 256) :
    handlerOf (UInt64.ofNat vector) =
      if vector = 0xff then .spurious
      else if vector = 0x80 then .exception
      else if vector < 0x20 then .exception
      else .irq := by
  have hvector : (UInt64.ofNat vector).toNat = vector := Nat.mod_eq_of_lt (by omega)
  have heq : ∀ n : Fin 256, UInt64.ofNat vector = UInt64.ofNat n ↔ vector = n := by
    intro n
    rw [← UInt64.toNat_inj, hvector, Fin.ext_iff]
    exact Eq.congr_right (Nat.mod_eq_of_lt (by omega))
  have hlt : UInt64.ofNat vector < 0x20 ↔ vector < 0x20 := by
    rw [UInt64.lt_iff_toNat_lt, hvector, Fin.lt_def]
    rfl
  rw [handlerOf]
  exact if_congr (heq 0xff) rfl (if_congr (heq 0x80) rfl (if_congr hlt rfl rfl))

theorem ofState_set_rax (vector : Fin 256) (error : UInt64) (s : State) (value : UInt64) :
    TrapFrame.ofState vector error (s.set .rax value) = { TrapFrame.ofState vector error s with
      regs := Function.update (TrapFrame.ofState vector error s).regs Index.rax value } := by
  have hregs : (TrapFrame.ofState vector error (s.set .rax value)).regs =
      Function.update (TrapFrame.ofState vector error s).regs Index.rax value := by
    funext n
    fin_cases n <;> rfl
  rw [← hregs]
  rfl

/-- A handler that returns leaves the frame as it was, but for the result of a system call. -/
theorem effect_of_call {vector : Fin 256} {error : UInt64} {s : State} {world world' : World}
    {frame : TrapFrame}
    (hcall : (handlerOf (UInt64.ofNat vector)).call services irqs
      (TrapFrame.ofState vector error s) world = .resumed frame world') :
    ∃ result, frame = TrapFrame.ofState vector error (s.set .rax result) ∧
      Effect services irqs vector s result world world' := by
  have hsame : TrapFrame.ofState vector error s =
      TrapFrame.ofState vector error (s.set .rax (s.reg .rax)) := by
    rw [State.set, Function.update_eq_self]
  rw [handlerOf_vector] at hcall
  split_ifs at hcall with hspurious hint hlow
  · obtain ⟨rfl, rfl⟩ := Trap.resumed.inj hcall
    exact ⟨s.reg .rax, hsame, .inl ⟨hspurious, rfl, rfl⟩⟩
  · obtain ⟨-, ret, hdispatch, rfl⟩ := trapException_eq_resumed hcall
    refine ⟨ret.toUInt64, (ofState_set_rax ..).symm, ?_⟩
    exact .inr (.inr (.inr ⟨hint, ret, hdispatch, rfl⟩))
  · -- an exception of the processor panics
    obtain ⟨hvector, -⟩ := trapException_eq_resumed hcall
    have htoNat : (UInt64.ofNat vector).toNat = vector := Nat.mod_eq_of_lt (by omega)
    have hint' : vector.val = 0x80 := htoNat.symm.trans (congrArg UInt64.toNat hvector)
    exact absurd (Fin.ext hint') hint
  · have hv : (TrapFrame.ofState vector error s).vector.toUInt8 = UInt8.ofNat vector := by
      show (UInt64.ofNat vector).toUInt8 = _
      simp
    obtain ⟨rfl, rfl⟩ := Trap.resumed.inj hcall
    refine ⟨s.reg .rax, hsame, .inr ?_⟩
    rw [hv]
    by_cases htick : vector = 0x20
    · rw [htick]
      exact .inl ⟨rfl, rfl, rfl⟩
    · have hne : UInt8.ofNat vector ≠ 0x20 := by
        intro heq
        have hval : vector.val % 256 = 0x20 := congrArg UInt8.toNat heq
        exact htick (Fin.ext ((Nat.mod_eq_of_lt vector.isLt).symm.trans hval))
      rw [if_neg hne]
      refine .inr (.inl ⟨⟨?_, ?_, hint⟩, rfl, rfl⟩)
      · exact lt_of_le_of_ne (not_lt.mp hlow) (Ne.symm htick)
      · exact lt_of_le_of_ne (Fin.le_last vector) hspurious

end Return

end Hyperion.X86
