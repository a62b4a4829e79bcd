import Hyperion.Lib.A64
import Hyperion.Lib.Word
import Hyperion.Proc.ContextSwitch

/-!
# The context switch on aarch64

`arch/aarch64/context.rs`.  `__ctx_switch` stores `x19` to `x30` and the stack pointer in the
context of the thread that leaves, loads them from the context of the next one, and returns through
the link register that it loaded.  `init_context` lays out a context whose link register is
`__thread_trampoline`, which calls the entry point of the thread.

A context has no registers for floating point and vectors, although the kernel is compiled with
them and a call is to preserve `d8` to `d15`.  A thread finds those of the thread that left.
-/

namespace Hyperion.Aarch64

open Hyperion.Lib Hyperion.Proc A64

/-- `Context`, 13 words in the order of its fields. -/
structure Context where
  x19 : UInt64
  x20 : UInt64
  x21 : UInt64
  x22 : UInt64
  x23 : UInt64
  x24 : UInt64
  x25 : UInt64
  x26 : UInt64
  x27 : UInt64
  x28 : UInt64
  fp : UInt64
  lr : UInt64
  sp : UInt64
  deriving DecidableEq, Repr

namespace Context

/-- `Context::default()`. -/
def zero : Context := ⟨0, 0, 0, 0, 0, 0, 0, 0, 0, 0, 0, 0, 0⟩

def words (c : Context) : List UInt64 :=
  [c.x19, c.x20, c.x21, c.x22, c.x23, c.x24, c.x25, c.x26, c.x27, c.x28, c.fp, c.lr, c.sp]

/-- The context at an address. -/
def load (mem : Memory) (addr : ℕ) : Context where
  x19 := mem.load64 addr
  x20 := mem.load64 (addr + 8)
  x21 := mem.load64 (addr + 16)
  x22 := mem.load64 (addr + 24)
  x23 := mem.load64 (addr + 32)
  x24 := mem.load64 (addr + 40)
  x25 := mem.load64 (addr + 48)
  x26 := mem.load64 (addr + 56)
  x27 := mem.load64 (addr + 64)
  x28 := mem.load64 (addr + 72)
  fp := mem.load64 (addr + 80)
  lr := mem.load64 (addr + 88)
  sp := mem.load64 (addr + 96)

/-- `size_of::<Context>()`. -/
def size : ℕ := 104

end Context

/-! ## The code -/

/-- `__ctx_switch`, up to `ret`. -/
def ctxSwitchCode : List Instr :=
  [ .stp (.x 19) (.x 20) (.x 0) 0,
    .stp (.x 21) (.x 22) (.x 0) 16,
    .stp (.x 23) (.x 24) (.x 0) 32,
    .stp (.x 25) (.x 26) (.x 0) 48,
    .stp (.x 27) (.x 28) (.x 0) 64,
    .stp (.x 29) (.x 30) (.x 0) 80,
    .mov (.x 9) .sp,
    .str (.x 9) (.x 0) 96,
    .ldr (.x 9) (.x 1) 96,
    .mov .sp (.x 9),
    .ldp (.x 29) (.x 30) (.x 1) 80,
    .ldp (.x 27) (.x 28) (.x 1) 64,
    .ldp (.x 25) (.x 26) (.x 1) 48,
    .ldp (.x 23) (.x 24) (.x 1) 32,
    .ldp (.x 21) (.x 22) (.x 1) 16,
    .ldp (.x 19) (.x 20) (.x 1) 0,
    .ret ]

/-- A call of `__ctx_switch` with its two arguments. -/
def ctxSwitch (prev next : UInt64) (s : State) : State :=
  run ctxSwitchCode ((s.set (.x 0) prev).set (.x 1) next)

/-- `init_context`; `trampoline` is the address of `__thread_trampoline`. -/
def initContext (trampoline entry arg stackTop : UInt64) (ctx : Context) : Context :=
  { ctx with
    x19 := entry
    x20 := arg
    lr := trampoline
    sp := stackTop &&& ~~~0xf
    fp := 0 }

/-- `__thread_trampoline`, up to the call of the entry point. -/
def trampolineCode (trampoline : UInt64) : List Instr :=
  [ .mov (.x 0) (.x 20),
    .blr (.x 19) (trampoline + 8) ]

/-! ## What the code does -/

/-- The general registers that a call of `__ctx_switch` is to preserve.  The call returns to the
address in the link register. -/
def leaves (s : State) : Context where
  x19 := s.reg (.x 19)
  x20 := s.reg (.x 20)
  x21 := s.reg (.x 21)
  x22 := s.reg (.x 22)
  x23 := s.reg (.x 23)
  x24 := s.reg (.x 24)
  x25 := s.reg (.x 25)
  x26 := s.reg (.x 26)
  x27 := s.reg (.x 27)
  x28 := s.reg (.x 28)
  fp := s.reg (.x 29)
  lr := s.reg (.x 30)
  sp := s.reg .sp

/-- The same registers where the call returns. -/
def resumes (s : State) : Context := { leaves s with lr := s.pc }

theorem words_injective : Function.Injective Context.words := by
  rintro ⟨⟩ ⟨⟩ hwords
  simpa [Context.words] using hwords

theorem words_load (mem : Memory) (addr : ℕ) :
    (Context.load mem addr).words = mem.loadWords addr 13 := rfl

theorem load_words (mem : Memory) (addr : ℕ) (c : Context) :
    Context.load (mem.storeWords addr c.words) addr = c := by
  apply words_injective
  rw [words_load]
  exact Memory.loadWords_storeWords mem addr c.words

theorem load_congr {mem mem' : Memory} {addr : ℕ}
    (hsame : ∀ a ∈ Set.Ico addr (addr + Context.size), mem' a = mem a) :
    Context.load mem' addr = Context.load mem addr := by
  apply words_injective
  rw [words_load, words_load]
  exact Memory.loadWords_congr hsame

/-- The context of the thread that leaves is all that is written. -/
theorem ctxSwitch_mem (prev next : UInt64) (s : State) :
    (ctxSwitch prev next s).mem = s.mem.storeWords prev.toNat (leaves s).words := rfl

/-- The registers come from the context of the next thread. -/
theorem resumes_ctxSwitch (prev next : UInt64) (s : State) :
    resumes (ctxSwitch prev next s) = Context.load (ctxSwitch prev next s).mem next.toNat := rfl

theorem ctxSwitch_fp (prev next : UInt64) (s : State) : (ctxSwitch prev next s).fp = s.fp :=
  run_fp ..

/-! ## The facade -/

/-- `proc/context.rs` on aarch64. -/
def facade (trampoline : UInt64) : Facade State Context where
  mem := State.mem
  leaves
  resumes
  parked := Context.load
  slot := fun _ => ∅
  size := Context.size
  ctxSwitch := fun prev next => ctxSwitch (UInt64.ofNat prev) (UInt64.ofNat next)
  initContext := fun ctx entry arg top mem =>
    mem.storeWords ctx (initContext trampoline entry arg top .zero).words
  starts := fun entry arg top => initContext trampoline entry arg top .zero
  parked_congr := fun hsame => load_congr fun a ha => hsame a (.inl ha)
  mem_ctxSwitch := by
    intro prev next s a hprev ha
    rw [ctxSwitch_mem, toNat_ofNat_of_add_le (by decide) hprev]
    exact Memory.storeWords_apply_of_notMem ha
  parked_ctxSwitch := by
    intro prev next s hprev _
    rw [ctxSwitch_mem, toNat_ofNat_of_add_le (by decide) hprev]
    exact load_words ..
  resumes_ctxSwitch := by
    intro prev next s hprev hnext hdisjoint
    rw [resumes_ctxSwitch, ctxSwitch_mem, toNat_ofNat_of_add_le (by decide) hprev,
      toNat_ofNat_of_add_le (by decide) hnext]
    refine load_congr fun a ha => Memory.storeWords_apply_of_notMem ?_
    exact Set.disjoint_right.mp hdisjoint (.inl ha)
  initContext_apply := fun _ ha => Memory.storeWords_apply_of_notMem fun hmem => ha (.inl hmem)
  parked_initContext := fun _ _ => load_words ..
  slot_starts := fun _ => Set.empty_subset _

/-- A step that gives the processor to another thread does not touch the registers for floating
point and vectors. -/
theorem fp_of_found {trampoline : UInt64} {k next : Kernel (facade trampoline)}
    {label : Label Context} (step : KernelStep (facade trampoline) k label next)
    (hfound : label.found ≠ none) : next.machine.fp = k.machine.fp := by
  cases step with
  | compute | tick | spawn | idle => exact absurd rfl hfound
  | yield _ _ _ _ _ _ hmachine | exit _ _ _ _ _ _ _ _ _ hmachine =>
    rw [hmachine]
    exact ctxSwitch_fp ..

end Hyperion.Aarch64
