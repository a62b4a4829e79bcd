import Hyperion.Lib.Memory

/-!
# A fragment of the x86-64 instruction set

Straight-line 64-bit code of a kernel: moves between registers and memory, the stack, and the ways
to leave a block of code.  The stack grows down; `push` and `pop` move 64-bit words.
-/

namespace Hyperion.Lib.Amd64

inductive Reg where
  | rax
  | rbx
  | rcx
  | rdx
  | rsi
  | rdi
  | rbp
  | rsp
  | r8
  | r9
  | r10
  | r11
  | r12
  | r13
  | r14
  | r15
  deriving DecidableEq, Repr

/-- One processor and the memory it sees. -/
structure State where
  reg : Reg → UInt64
  rip : UInt64
  rflags : UInt64
  cs : UInt64
  ss : UInt64
  mem : Memory

inductive Instr where
  | mov (dst src : Reg)
  /-- also `lea` of a symbol -/
  | movImm (dst : Reg) (value : UInt64)
  /-- the lower 16 bits -/
  | movImm16 (dst : Reg) (value : UInt16)
  /-- the stack segment from the lower 16 bits -/
  | movSs (src : Reg)
  /-- `mov dst, [base + offset]` -/
  | load (dst base : Reg) (offset : ℕ)
  /-- `mov [base + offset], src` -/
  | store (base : Reg) (offset : ℕ) (src : Reg)
  | addImm (dst : Reg) (value : UInt64)
  | push (src : Reg)
  | pushImm (value : UInt64)
  | pop (dst : Reg)
  /-- a call through a register, from the instruction before `link` -/
  | call (target : Reg) (link : UInt64)
  /-- a call of a symbol -/
  | callImm (target link : UInt64)
  | ret
  | iretq
  deriving DecidableEq, Repr

namespace State

def set (s : State) (r : Reg) (value : UInt64) : State :=
  { s with reg := Function.update s.reg r value }

def push (s : State) (value : UInt64) : State :=
  { s.set .rsp (s.reg .rsp - 8) with mem := s.mem.store64 (s.reg .rsp - 8).toNat value }

/-- The word the stack pointer points to. -/
def top (s : State) : UInt64 := s.mem.load64 (s.reg .rsp).toNat

/-- The word at an offset from the stack pointer. -/
def above (s : State) (offset : ℕ) : UInt64 := s.mem.load64 ((s.reg .rsp).toNat + offset)

end State

def exec : Instr → State → State
  | .mov dst src, s => s.set dst (s.reg src)
  | .movImm dst value, s => s.set dst value
  | .movImm16 dst value, s => s.set dst (s.reg dst &&& ~~~0xffff ||| value.toUInt64)
  | .movSs src, s => { s with ss := s.reg src &&& 0xffff }
  | .load dst base offset, s => s.set dst (s.mem.load64 ((s.reg base).toNat + offset))
  | .store base offset src, s =>
    { s with mem := s.mem.store64 ((s.reg base).toNat + offset) (s.reg src) }
  | .addImm dst value, s => s.set dst (s.reg dst + value)
  | .push src, s => s.push (s.reg src)
  | .pushImm value, s => s.push value
  | .pop dst, s => (s.set .rsp (s.reg .rsp + 8)).set dst s.top
  | .call target link, s => { s.push link with rip := s.reg target }
  | .callImm target link, s => { s.push link with rip := target }
  | .ret, s => { s.set .rsp (s.reg .rsp + 8) with rip := s.top }
  | .iretq, s =>
    { s.set .rsp (s.above 24) with
      rip := s.top
      cs := s.above 8
      rflags := s.above 16
      ss := s.above 32 }

def run (code : List Instr) (s : State) : State := code.foldl (fun s instr => exec instr s) s

theorem run_append (first second : List Instr) (s : State) :
    run (first ++ second) s = run second (run first s) :=
  List.foldl_append

def State.pushAll (s : State) (words : List UInt64) : State := words.foldl State.push s

/-- The vectors for which the processor pushes an error code: double fault, invalid TSS, segment
not present, stack fault, general protection, page fault, alignment check, control protection, and
the VMM communication and security exceptions. -/
def HasErrorCode (vector : ℕ) : Prop :=
  vector = 8 ∨ 10 ≤ vector ∧ vector ≤ 14 ∨ vector = 17 ∨ vector = 21 ∨ vector = 29 ∨ vector = 30

instance (vector : ℕ) : Decidable (HasErrorCode vector) := inferInstanceAs (Decidable (_ ∨ _))

/-- The processor takes an interrupt through an interrupt gate, without a change of privilege: it
aligns the stack pointer, masks interrupts, and pushes what `iretq` pops and an error code if the
vector has one. -/
def State.interrupt (s : State) (error : Option UInt64) : State :=
  { s.set .rsp (s.reg .rsp &&& ~~~0xf) with rflags := s.rflags &&& ~~~0x200 }.pushAll
    ([s.ss, s.reg .rsp, s.rflags, s.cs, s.rip] ++ error.toList)

theorem set_reg_self (s : State) (r : Reg) (value : UInt64) : (s.set r value).reg r = value :=
  Function.update_self ..

theorem set_reg_of_ne (s : State) {r r' : Reg} (value : UInt64) (hne : r' ≠ r) :
    (s.set r value).reg r' = s.reg r' :=
  Function.update_of_ne hne ..

/-! ## The stack -/

/-- The first `n` words of the stack. -/
def State.stack (s : State) (n : ℕ) : List UInt64 := s.mem.loadWords (s.reg .rsp).toNat n

section Pushes

variable (s : State) (word : UInt64)

theorem push_rsp : (s.push word).reg .rsp = s.reg .rsp - 8 := set_reg_self s .rsp _

theorem toNat_push_rsp (hroom : 8 ≤ (s.reg .rsp).toNat) :
    ((s.push word).reg .rsp).toNat = (s.reg .rsp).toNat - 8 := by
  rw [push_rsp]
  exact UInt64.toNat_sub_of_le _ _ (UInt64.le_iff_toNat_le.mpr hroom)

theorem stack_push (hroom : 8 ≤ (s.reg .rsp).toNat) (n : ℕ) :
    (s.push word).stack (n + 1) = word :: s.stack n := by
  have hrsp := toNat_push_rsp s word hroom
  have hmem : (s.push word).mem = s.mem.store64 ((s.push word).reg .rsp).toNat word := by
    rw [push_rsp]
    rfl
  rw [State.stack, Memory.loadWords, hmem, Memory.load64_store64_self, hrsp,
    Nat.sub_add_cancel hroom, State.stack, Memory.loadWords_congr]
  intro a ha
  refine Memory.store64_apply_of_notMem ?_
  rw [Set.mem_Ico] at ha ⊢
  omega

end Pushes

theorem pushAll_append (s : State) (first second : List UInt64) :
    s.pushAll (first ++ second) = (s.pushAll first).pushAll second :=
  List.foldl_append

theorem pushAll_reg_of_ne {r : Reg} (hr : r ≠ .rsp) (words : List UInt64) (s : State) :
    (s.pushAll words).reg r = s.reg r := by
  induction words generalizing s with
  | nil => rfl
  | cons word words ih => exact (ih (s.push word)).trans (set_reg_of_ne _ _ hr)

/-- A block of pushes of registers other than the stack pointer. -/
theorem run_pushes {regs : List Reg} (hrsp : Reg.rsp ∉ regs) (s : State) :
    run (regs.map Instr.push) s = s.pushAll (regs.map s.reg) := by
  induction regs generalizing s with
  | nil => rfl
  | cons r regs ih =>
    rw [List.mem_cons, not_or] at hrsp
    have hsame : regs.map (s.push (s.reg r)).reg = regs.map s.reg :=
      List.map_congr_left fun r' hr' =>
        set_reg_of_ne s _ fun heq => hrsp.2 (heq ▸ hr')
    show run (regs.map Instr.push) (s.push (s.reg r)) = _
    rw [ih hrsp.2, hsame]
    rfl

/-- Words that are pushed are found on the stack, the last one first. -/
theorem stack_pushAll (words : List UInt64) (s : State)
    (hroom : 8 * words.length ≤ (s.reg .rsp).toNat) :
    ((s.pushAll words).reg .rsp).toNat = (s.reg .rsp).toNat - 8 * words.length ∧
      (s.pushAll words).stack words.length = words.reverse := by
  induction words using List.reverseRecOn with
  | nil => exact ⟨rfl, rfl⟩
  | append_singleton words word ih =>
    rw [List.length_append, List.length_singleton] at hroom ⊢
    obtain ⟨hrsp, hstack⟩ := ih (by omega)
    have hpush : s.pushAll (words ++ [word]) = (s.pushAll words).push word := by
      simp [State.pushAll]
    rw [hpush, toNat_push_rsp _ _ (by omega), stack_push _ _ (by omega), hstack, hrsp]
    exact ⟨by omega, by simp⟩

theorem run_pops_reg_of_notMem {regs : List Reg} {r : Reg} (hr : r ∉ regs) (hrsp : r ≠ .rsp)
    (s : State) : (run (regs.map Instr.pop) s).reg r = s.reg r := by
  induction regs generalizing s with
  | nil => rfl
  | cons first regs ih =>
    rw [List.mem_cons, not_or] at hr
    refine (ih hr.2 (exec (.pop first) s)).trans ?_
    exact (set_reg_of_ne _ _ hr.1).trans (set_reg_of_ne _ _ hrsp)

/-- A block of pops: the registers get the words of the stack in order. -/
theorem run_pops {regs : List Reg} (hnodup : regs.Nodup) (hrsp : Reg.rsp ∉ regs) (s : State)
    (hroom : (s.reg .rsp).toNat + 8 * regs.length < 2 ^ 64) :
    run (regs.map Instr.pop) s =
        { s with reg := (run (regs.map Instr.pop) s).reg } ∧
      ((run (regs.map Instr.pop) s).reg .rsp).toNat = (s.reg .rsp).toNat + 8 * regs.length ∧
      ∀ (i : ℕ) (r : Reg), regs[i]? = some r →
        (run (regs.map Instr.pop) s).reg r = s.mem.load64 ((s.reg .rsp).toNat + 8 * i) := by
  induction regs generalizing s with
  | nil => exact ⟨rfl, rfl, by simp⟩
  | cons first regs ih =>
    rw [List.nodup_cons] at hnodup
    rw [List.length_cons] at hroom ⊢
    rw [List.mem_cons, not_or] at hrsp
    have hnext : ((exec (.pop first) s).reg .rsp).toNat = (s.reg .rsp).toNat + 8 := by
      have hset : (exec (.pop first) s).reg .rsp = s.reg .rsp + 8 :=
        (set_reg_of_ne _ _ hrsp.1).trans (set_reg_self ..)
      rw [hset, UInt64.toNat_add]
      exact Nat.mod_eq_of_lt (by show _ + 8 < 2 ^ 64; omega)
    obtain ⟨hsame, hafter, hregs⟩ := ih hnodup.2 hrsp.2 (exec (.pop first) s) (by omega)
    refine ⟨hsame, hafter.trans (by omega), ?_⟩
    intro i r hi
    cases i with
    | zero =>
      obtain rfl : first = r := by simpa using hi
      exact (run_pops_reg_of_notMem hnodup.1 (Ne.symm hrsp.1) _).trans (set_reg_self ..)
    | succ i =>
      refine (hregs i r (by simpa using hi)).trans ?_
      rw [hnext, Nat.mul_succ, Nat.add_assoc, Nat.add_comm 8]
      rfl

end Hyperion.Lib.Amd64
