import Hyperion.Lib.Amd64
import Hyperion.Lib.Word
import Hyperion.Proc.ContextSwitch

/-!
# The context switch on x86-64

`arch/x86_64/context.rs`.  The address where a thread continues is not in its context: it is on its
stack, where the call of `__ctx_switch` pushed it, and `ret` takes it from there.  So `init_context`
writes to the stack of the new thread as well.  It leaves the address of `__thread_trampoline` in
the word below the aligned top, which `ret` pops.
-/

namespace Hyperion.X86

open Hyperion.Lib Hyperion.Proc Amd64

/-- `Context`, 7 words in the order of its fields. -/
structure Context where
  rbx : UInt64
  rbp : UInt64
  r12 : UInt64
  r13 : UInt64
  r14 : UInt64
  r15 : UInt64
  rsp : UInt64
  deriving DecidableEq, Repr

namespace Context

def words (c : Context) : List UInt64 := [c.rbx, c.rbp, c.r12, c.r13, c.r14, c.r15, c.rsp]

/-- The context at an address. -/
def load (mem : Memory) (addr : ℕ) : Context where
  rbx := mem.load64 addr
  rbp := mem.load64 (addr + 8)
  r12 := mem.load64 (addr + 16)
  r13 := mem.load64 (addr + 24)
  r14 := mem.load64 (addr + 32)
  r15 := mem.load64 (addr + 40)
  rsp := mem.load64 (addr + 48)

/-- `size_of::<Context>()`. -/
def size : ℕ := 56

end Context

/-! ## The code -/

/-- `__ctx_switch`. -/
def ctxSwitchCode : List Instr :=
  [ .store .rdi 0 .rbx,
    .store .rdi 8 .rbp,
    .store .rdi 16 .r12,
    .store .rdi 24 .r13,
    .store .rdi 32 .r14,
    .store .rdi 40 .r15,
    .store .rdi 48 .rsp,
    .load .rsp .rsi 48,
    .load .r15 .rsi 40,
    .load .r14 .rsi 32,
    .load .r13 .rsi 24,
    .load .r12 .rsi 16,
    .load .rbp .rsi 8,
    .load .rbx .rsi 0,
    .ret ]

/-- A call of `__ctx_switch` with its two arguments.  The stack pointer points to the return
address. -/
def ctxSwitch (prev next : UInt64) (s : State) : State :=
  run ctxSwitchCode ((s.set .rdi prev).set .rsi next)

/-- The stack pointer of a new thread when it enters the trampoline. -/
def alignedTop (stackTop : UInt64) : UInt64 := stackTop &&& ~~~0xf

/-- `init_context`: the context, and the word on the stack of the thread. -/
def initContext (trampoline entry arg stackTop : UInt64) (mem : Memory) : Context × Memory :=
  ({ rbx := 0, rbp := 0, r12 := 0, r13 := 0, r14 := arg, r15 := entry,
     rsp := alignedTop stackTop - 8 },
    mem.store64 (alignedTop stackTop - 8).toNat trampoline)

/-- `__thread_trampoline`, up to the call of the entry point; `link` is the address behind it. -/
def trampolineCode (link : UInt64) : List Instr :=
  [ .mov .rdi .r14,
    .call .r15 link ]

/-! ## What the code does -/

/-- What the caller of `__ctx_switch` is to find: the callee-saved registers, the stack pointer
behind the return address, and the address where it continues. -/
structure Regs where
  rbx : UInt64
  rbp : UInt64
  r12 : UInt64
  r13 : UInt64
  r14 : UInt64
  r15 : UInt64
  rsp : UInt64
  rip : UInt64
  deriving DecidableEq, Repr

/-- A context together with the word its stack pointer points to. -/
def Context.toRegs (c : Context) (mem : Memory) : Regs :=
  ⟨c.rbx, c.rbp, c.r12, c.r13, c.r14, c.r15, c.rsp + 8, mem.load64 c.rsp.toNat⟩

/-- The registers that `__ctx_switch` stores. -/
def context (s : State) : Context :=
  ⟨s.reg .rbx, s.reg .rbp, s.reg .r12, s.reg .r13, s.reg .r14, s.reg .r15, s.reg .rsp⟩

def leaves (s : State) : Regs := (context s).toRegs s.mem

def resumes (s : State) : Regs :=
  ⟨s.reg .rbx, s.reg .rbp, s.reg .r12, s.reg .r13, s.reg .r14, s.reg .r15, s.reg .rsp, s.rip⟩

def parked (mem : Memory) (addr : ℕ) : Regs := (Context.load mem addr).toRegs mem

/-- The word with the return address. -/
def slot (regs : Regs) : Set ℕ := Set.Ico (regs.rsp - 8).toNat ((regs.rsp - 8).toNat + 8)

theorem slot_toRegs (c : Context) (mem : Memory) :
    slot (c.toRegs mem) = Set.Ico c.rsp.toNat (c.rsp.toNat + 8) := by
  have hrsp : (c.toRegs mem).rsp - 8 = c.rsp := UInt64.add_sub_cancel ..
  rw [slot, hrsp]

theorem toRegs_congr {c : Context} {mem mem' : Memory}
    (hsame : ∀ a ∈ Set.Ico c.rsp.toNat (c.rsp.toNat + 8), mem' a = mem a) :
    c.toRegs mem' = c.toRegs mem := by
  rw [Context.toRegs, Context.toRegs, Memory.load64_congr hsame]

theorem words_injective : Function.Injective Context.words := by
  rintro ⟨⟩ ⟨⟩ hwords
  simpa [Context.words] using hwords

theorem words_load (mem : Memory) (addr : ℕ) :
    (Context.load mem addr).words = mem.loadWords addr 7 := rfl

theorem load_words (mem : Memory) (addr : ℕ) (c : Context) :
    Context.load (mem.storeWords addr c.words) addr = c := by
  apply words_injective
  rw [words_load]
  exact Memory.loadWords_storeWords mem addr c.words

theorem load_congr {mem mem' : Memory} {addr : ℕ}
    (hsame : ∀ a ∈ Set.Ico addr (addr + Context.size), mem' a = mem a) :
    Context.load mem' addr = Context.load mem addr := by
  apply words_injective
  rw [words_load, words_load]
  exact Memory.loadWords_congr hsame

/-- A parked thread depends on its context and on its return address. -/
theorem parked_congr {mem mem' : Memory} {addr : ℕ}
    (hsame : ∀ a ∈ Set.Ico addr (addr + Context.size) ∪ slot (parked mem addr), mem' a = mem a) :
    parked mem' addr = parked mem addr := by
  have hload : Context.load mem' addr = Context.load mem addr :=
    load_congr fun a ha => hsame a (.inl ha)
  rw [parked, parked, hload]
  refine toRegs_congr fun a ha => hsame a (.inr ?_)
  rwa [parked, slot_toRegs]

theorem ctxSwitch_mem (prev next : UInt64) (s : State) :
    (ctxSwitch prev next s).mem = s.mem.storeWords prev.toNat (context s).words := rfl

/-- `ret` takes the return address from the stack of the next thread. -/
theorem resumes_ctxSwitch (prev next : UInt64) (s : State) :
    resumes (ctxSwitch prev next s) = parked (ctxSwitch prev next s).mem next.toNat := rfl

theorem alignedTop_mem {top : UInt64} (htop : 32 ≤ top.toNat) :
    16 ∣ (alignedTop top).toNat ∧ top.toNat < (alignedTop top).toNat + 16 ∧
      (alignedTop top).toNat ≤ top.toNat ∧
      (alignedTop top - 8).toNat = (alignedTop top).toNat - 8 := by
  have haligned : (alignedTop top).toNat = top.toNat / 2 ^ 4 * 2 ^ 4 := toNat_and_not_mask rfl
  have hle : (8 : UInt64) ≤ alignedTop top := by
    rw [UInt64.le_iff_toNat_le, haligned]
    show 8 ≤ _
    omega
  refine ⟨?_, ?_, ?_, UInt64.toNat_sub_of_le _ _ hle⟩
  · rw [haligned]
    exact Dvd.intro_left _ rfl
  · rw [haligned]
    omega
  · rw [haligned]
    omega

/-! ## The facade -/

/-- What a new thread finds. -/
def starts (trampoline entry arg top : UInt64) : Regs :=
  ⟨0, 0, 0, 0, arg, entry, alignedTop top, trampoline⟩

theorem parked_initContext {trampoline entry arg top : UInt64} {mem : Memory} {ctx : ℕ}
    (htop : 32 ≤ top.toNat)
    (hdisjoint : Disjoint (Set.Ico ctx (ctx + Context.size))
      (Set.Ico (top.toNat - 32) top.toNat)) :
    parked ((initContext trampoline entry arg top mem).2.storeWords ctx
      (initContext trampoline entry arg top mem).1.words) ctx =
        starts trampoline entry arg top := by
  obtain ⟨-, hlow, hhigh, hslot⟩ := alignedTop_mem htop
  have hcontext := load_words (initContext trampoline entry arg top mem).2 ctx
    (initContext trampoline entry arg top mem).1
  rw [parked, hcontext]
  -- the context does not overwrite the return address
  have hsame : (initContext trampoline entry arg top mem).1.toRegs
      ((initContext trampoline entry arg top mem).2.storeWords ctx
        (initContext trampoline entry arg top mem).1.words) =
      (initContext trampoline entry arg top mem).1.toRegs
        (initContext trampoline entry arg top mem).2 := by
    refine toRegs_congr fun a ha => Memory.storeWords_apply_of_notMem ?_
    refine Set.disjoint_right.mp hdisjoint ?_
    have ha : a ∈ Set.Ico (alignedTop top - 8).toNat ((alignedTop top - 8).toNat + 8) := ha
    rw [Set.mem_Ico] at ha ⊢
    omega
  have hrsp : alignedTop top - 8 + 8 = alignedTop top := UInt64.sub_add_cancel ..
  have hrip : (mem.store64 (alignedTop top - 8).toNat trampoline).load64
      (alignedTop top - 8).toNat =
      trampoline := Memory.load64_store64_self
  rw [hsame, Context.toRegs, initContext, starts, hrsp, hrip]

/-- `proc/context.rs` on x86-64. -/
def facade (trampoline : UInt64) : Facade State Regs where
  mem := State.mem
  leaves
  resumes
  parked
  slot
  size := Context.size
  ctxSwitch := fun prev next => ctxSwitch (UInt64.ofNat prev) (UInt64.ofNat next)
  initContext := fun ctx entry arg top mem =>
    (initContext trampoline entry arg top mem).2.storeWords ctx
      (initContext trampoline entry arg top mem).1.words
  starts := starts trampoline
  parked_congr
  mem_ctxSwitch := by
    intro prev next s a hprev ha
    rw [ctxSwitch_mem, toNat_ofNat_of_add_le (by decide) hprev]
    exact Memory.storeWords_apply_of_notMem ha
  parked_ctxSwitch := by
    intro prev next s hprev hdisjoint
    rw [leaves, slot_toRegs] at hdisjoint
    rw [ctxSwitch_mem, toNat_ofNat_of_add_le (by decide) hprev, parked, load_words, leaves]
    exact toRegs_congr fun a ha =>
      Memory.storeWords_apply_of_notMem (Set.disjoint_right.mp hdisjoint ha)
  resumes_ctxSwitch := by
    intro prev next s hprev hnext hdisjoint
    rw [resumes_ctxSwitch, ctxSwitch_mem, toNat_ofNat_of_add_le (by decide) hprev,
      toNat_ofNat_of_add_le (by decide) hnext]
    exact parked_congr fun a ha =>
      Memory.storeWords_apply_of_notMem (Set.disjoint_right.mp hdisjoint ha)
  initContext_apply := by
    intro ctx entry arg top mem a htop ha
    obtain ⟨-, hlow, hhigh, hslot⟩ := alignedTop_mem htop
    refine (Memory.storeWords_apply_of_notMem fun hmem => ha (.inl hmem)).trans ?_
    refine Memory.store64_apply_of_notMem fun hmem => ha (.inr ?_)
    rw [Set.mem_Ico] at hmem ⊢
    omega
  parked_initContext := parked_initContext
  slot_starts := by
    intro entry arg top htop
    obtain ⟨-, hlow, hhigh, hslot⟩ := alignedTop_mem htop
    show Set.Ico (alignedTop top - 8).toNat ((alignedTop top - 8).toNat + 8) ⊆ _
    rw [hslot]
    exact Set.Ico_subset_Ico (by omega) (by omega)

/-- **Threads keep their registers and their stacks.**  In every run of the kernel on x86-64 with
fewer than `2^64` spawns, a thread that gets the processor continues behind its own call of
`__ctx_switch`: the return address is still on its stack, and the callee-saved registers, the stack
pointer and the stack are as it left them.  A thread that runs for the first time enters the
trampoline with a stack pointer that is aligned to 16 bytes, and the call there enters its entry
point with its argument, the return address pushed, as the calling convention asks for. -/
theorem threads_return (trampoline link kernelPid : UInt64) (machine : State)
    (p : Place Context.size) (labels : List (Label Regs)) (k : Kernel (facade trampoline))
    (run : Run (KernelStep (facade trampoline))
      (Kernel.boot (facade trampoline) kernelPid machine p) labels k)
    (hcount : (spawned (labels.filterMap Label.event)).length < 2 ^ 64) :
    Resumed labels ∧
    ∀ name tid entry arg view, Label.spawned name tid entry arg view ∈ labels →
      ∀ s, resumes s = view.regs → s.rip = trampoline ∧ 16 ∣ (s.reg .rsp).toNat ∧
        (Amd64.run (trampolineCode link) s).rip = entry ∧
        (Amd64.run (trampolineCode link) s).reg .rdi = arg ∧
        ((Amd64.run (trampolineCode link) s).reg .rsp).toNat % 16 = 8 ∧
        (Amd64.run (trampolineCode link) s).top = link := by
  refine ⟨resumed_as_left run hcount, ?_⟩
  intro name tid entry arg view hspawned s hs
  obtain ⟨top, htop, hroom⟩ := exists_starts_of_spawned run hspawned
  have hroom : 32 ≤ top.toNat := le_trans (by decide) hroom
  obtain ⟨haligned, hlow, -, hbelow⟩ := alignedTop_mem hroom
  have hregs : resumes s = starts trampoline entry arg top := hs.trans htop
  have hrip : s.rip = trampoline := congrArg Regs.rip hregs
  have hentry : s.reg .r15 = entry := congrArg Regs.r15 hregs
  have harg : s.reg .r14 = arg := congrArg Regs.r14 hregs
  have hrsp : s.reg .rsp = alignedTop top := congrArg Regs.rsp hregs
  refine ⟨hrip, hrsp ▸ haligned, hentry, harg, ?_, Memory.load64_store64_self⟩
  show (s.reg .rsp - 8).toNat % 16 = 8
  rw [hrsp, hbelow]
  omega

/-- A thread is spawned and the boot thread yields to it. -/
theorem threads_return_spawn_yield :
    ∃ machine p labels k, Run (KernelStep (facade 0x100000))
        (Kernel.boot (facade 0x100000) 1 machine p) labels k ∧
      (∃ left found, Label.switched 1 left 2 found ∈ labels) ∧
      Resumed labels ∧
      ∀ name tid entry arg view, Label.spawned name tid entry arg view ∈ labels →
        ∀ s, resumes s = view.regs → s.rip = 0x100000 ∧ 16 ∣ (s.reg .rsp).toNat ∧
          (Amd64.run (trampolineCode 0x100006) s).rip = entry ∧
          (Amd64.run (trampolineCode 0x100006) s).reg .rdi = arg ∧
          ((Amd64.run (trampolineCode 0x100006) s).reg .rsp).toNat % 16 = 8 ∧
          (Amd64.run (trampolineCode 0x100006) s).top = 0x100006 := by
  let machine : State := ⟨fun _ => 0x2800, 0, 0, 8, 0x10, fun _ => 0⟩
  let mem := (facade 0x100000).initContext 0x8000 0x200000 7 (UInt64.ofNat (0x10000 + stackSize))
    ((facade 0x100000).mem machine)
  have hmem : (facade 0x100000).mem { machine with mem } = mem := rfl
  obtain ⟨p, labels, k, run, hcount, hswitched⟩ :=
    exists_switch (F := facade 0x100000) (by decide) hmem
      (Set.Ico_subset_Ico (by decide) (by decide))
  exact ⟨machine, p, labels, k, run, hswitched,
    threads_return 0x100000 0x100006 1 machine p labels k run hcount⟩

end Hyperion.X86
