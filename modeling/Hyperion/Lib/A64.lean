import Hyperion.Lib.Memory

/-!
# A fragment of the A64 instruction set

Straight-line code of a kernel at EL1: moves, additions, loads and stores of 64-bit words, and
transfers between general and system registers.  The stack pointer counts as a register.  Addresses
do not wrap: the sum of a base and an offset is taken on natural numbers.  The registers for
floating point and vectors are part of the state, but no instruction here uses them (`run_fp`).
-/

namespace Hyperion.Lib.A64

/-- The numbers of the general registers are written as literals. -/
instance neZero_regs : NeZero 31 := ⟨by decide⟩

/-- The registers that an instruction can name. -/
inductive Reg where
  | x (n : Fin 31)
  | sp
  deriving DecidableEq, Repr

inductive SysReg where
  | spEl0
  | elrEl1
  | spsrEl1
  | esrEl1
  | farEl1
  deriving DecidableEq, Repr

/-- The registers for floating point and vectors. -/
structure FpRegs where
  v : Fin 32 → BitVec 128
  fpcr : UInt64
  fpsr : UInt64

/-- One processor and the memory it sees. -/
structure State where
  reg : Reg → UInt64
  fp : FpRegs
  sys : SysReg → UInt64
  pc : UInt64
  mem : Memory

inductive Instr where
  | mov (dst src : Reg)
  | addImm (dst src : Reg) (value : UInt64)
  | subImm (dst src : Reg) (value : UInt64)
  | str (src base : Reg) (offset : ℕ)
  | stp (first second base : Reg) (offset : ℕ)
  | ldr (dst base : Reg) (offset : ℕ)
  | ldp (first second base : Reg) (offset : ℕ)
  | mrs (dst : Reg) (src : SysReg)
  | msr (dst : SysReg) (src : Reg)
  /-- a call through a register, from the instruction before `link` -/
  | blr (target : Reg) (link : UInt64)
  | ret
  | eret
  deriving DecidableEq, Repr

namespace State

def set (s : State) (r : Reg) (value : UInt64) : State :=
  { s with reg := Function.update s.reg r value }

/-- The address `[base, #offset]`. -/
def addr (s : State) (base : Reg) (offset : ℕ) : ℕ := (s.reg base).toNat + offset

def store (s : State) (base : Reg) (offset : ℕ) (value : UInt64) : State :=
  { s with mem := s.mem.store64 (s.addr base offset) value }

def load (s : State) (base : Reg) (offset : ℕ) : UInt64 := s.mem.load64 (s.addr base offset)

end State

/-- The link register. -/
def lr : Reg := .x 30

def exec : Instr → State → State
  | .mov dst src, s => s.set dst (s.reg src)
  | .addImm dst src value, s => s.set dst (s.reg src + value)
  | .subImm dst src value, s => s.set dst (s.reg src - value)
  | .str src base offset, s => s.store base offset (s.reg src)
  | .stp first second base offset, s =>
    (s.store base offset (s.reg first)).store base (offset + 8) (s.reg second)
  | .ldr dst base offset, s => s.set dst (s.load base offset)
  | .ldp first second base offset, s =>
    (s.set first (s.load base offset)).set second (s.load base (offset + 8))
  | .mrs dst src, s => s.set dst (s.sys src)
  | .msr dst src, s => { s with sys := Function.update s.sys dst (s.reg src) }
  | .blr target link, s => { s.set lr link with pc := s.reg target }
  | .ret, s => { s with pc := s.reg lr }
  | .eret, s => { s with pc := s.sys .elrEl1 }

def run (code : List Instr) (s : State) : State := code.foldl (fun s instr => exec instr s) s

theorem run_append (first second : List Instr) (s : State) :
    run (first ++ second) s = run second (run first s) :=
  List.foldl_append

theorem exec_fp (instr : Instr) (s : State) : (exec instr s).fp = s.fp := by
  cases instr <;> rfl

theorem run_fp (code : List Instr) (s : State) : (run code s).fp = s.fp := by
  induction code generalizing s with
  | nil => rfl
  | cons instr code ih => exact (ih (exec instr s)).trans (exec_fp instr s)

end Hyperion.Lib.A64
