import Hyperion.Lib.PageWalk

/-!
# A fragment of the 32-bit instruction set

Boot code of an x86 processor: it starts in protected mode with flat segments and without paging,
and may turn on the paging of long mode.  From then on every access, also the fetch of the next
instruction, goes through the page tables in memory, so that a bad table stops the processor.  The
paging of 32-bit mode and paging with five levels are not modelled; turning them on stops the
processor too.

A program is a list of instructions with their addresses.  Accesses are aligned, so that they do not
cross a page.
-/

namespace Hyperion.Lib.Ia32

inductive Reg where
  | eax
  | ebx
  | ecx
  | edx
  | esi
  | edi
  | ebp
  | esp
  deriving DecidableEq, Repr

inductive Control where
  | cr0
  | cr3
  | cr4
  deriving DecidableEq, Repr

/-- What instructions work on. -/
structure Core where
  reg : Reg → UInt32
  control : Control → UInt32
  msr : UInt32 → UInt64
  direction : Bool
  interrupts : Bool
  gdt : UInt32
  mem : Memory

/-- Where a far return went. -/
structure Far where
  selector : UInt32
  descriptor : UInt64
  offset : UInt32
  deriving DecidableEq, Repr

structure State extends Core where
  paging : Bool
  /-- the index of the next instruction -/
  pc : ℕ
  far : Option Far

/-- Instructions that go on with the next one, and do not turn paging on or off. -/
inductive Op where
  | cld
  | cli
  | mov (dst src : Reg)
  /-- also `lea` of a symbol -/
  | movImm (dst : Reg) (value : UInt32)
  | sub (dst src : Reg)
  | shrImm (dst : Reg) (count : UInt32)
  | xor (dst src : Reg)
  | orImm (dst : Reg) (value : UInt32)
  | addImm (dst : Reg) (value : UInt32)
  | storeAbs (addr : UInt32) (src : Reg)
  | store (base : Reg) (offset : UInt32) (src : Reg)
  | storeImm (base : Reg) (offset value : UInt32)
  | push (src : Reg)
  | pushImm (value : UInt32)
  | pop (dst : Reg)
  | repStosd
  | movFromCr (dst : Reg) (src : Control)
  | movToCr3 (src : Reg)
  | movToCr4 (src : Reg)
  | rdmsr
  | wrmsr
  | lgdt (addr : UInt32)
  deriving DecidableEq, Repr

inductive Instr where
  | op (op : Op)
  | movToCr0 (src : Reg)
  /-- `loop` to the instruction with an index -/
  | loop (target : ℕ)
  | retf
  deriving DecidableEq, Repr

structure Program where
  code : List Instr
  addr : ℕ → UInt32

/-- `EFER`, with `LME` in bit 8. -/
def efer : UInt32 := 0xC0000080

/-- How memory is accessed: whether the processor has pages of 1 GiB, and whether paging is on. -/
structure Mode where
  gibPages : Bool
  paging : Bool

namespace Core

def set (c : Core) (r : Reg) (value : UInt32) : Core :=
  { c with reg := Function.update c.reg r value }

/-- The mapping of a linear address. -/
def mapping (mode : Mode) (c : Core) (addr : UInt32) : Option PageWalk.Mapping :=
  if mode.paging then PageWalk.translate mode.gibPages c.mem (c.control .cr3).toNat addr.toNat
  else some ⟨addr.toNat, true, true⟩

def store (mode : Mode) (c : Core) (addr value : UInt32) : Option Core := do
  let mapping ← c.mapping mode addr
  if mapping.writable then some { c with mem := c.mem.store32 mapping.address value } else none

def load (mode : Mode) (c : Core) (addr : UInt32) : Option UInt32 := do
  let mapping ← c.mapping mode addr
  some (c.mem.load32 mapping.address)

/-- A descriptor of a segment, eight bytes. -/
def loadDescriptor (mode : Mode) (c : Core) (addr : UInt32) : Option UInt64 := do
  let mapping ← c.mapping mode addr
  some (c.mem.load64 mapping.address)

def push (mode : Mode) (c : Core) (value : UInt32) : Option Core :=
  (c.set .esp (c.reg .esp - 4)).store mode (c.reg .esp - 4) value

/-- Whether `EFER.LME`, `CR4.PAE` and `CR4.LA57` select paging with four levels. -/
def FourLevels (c : Core) : Prop :=
  (c.msr efer).toNat.testBit 8 ∧ (c.control .cr4).toNat.testBit 5 ∧
    ¬(c.control .cr4).toNat.testBit 12

instance (c : Core) : Decidable c.FourLevels := inferInstanceAs (Decidable (_ ∧ _))

end Core

/-- One turn of `rep stosd`. -/
def stosd (mode : Mode) (c : Core) : Option Core := do
  let c ← c.store mode (c.reg .edi) (c.reg .eax)
  let edi := if c.direction then c.reg .edi - 4 else c.reg .edi + 4
  some ((c.set .edi edi).set .ecx (c.reg .ecx - 1))

def repStosd (mode : Mode) : ℕ → Core → Option Core
  | 0, c => some c
  | n + 1, c => do repStosd mode n (← stosd mode c)

def effect (mode : Mode) : Op → Core → Option Core
  | .cld, c => some { c with direction := false }
  | .cli, c => some { c with interrupts := false }
  | .mov dst src, c => some (c.set dst (c.reg src))
  | .movImm dst value, c => some (c.set dst value)
  | .sub dst src, c => some (c.set dst (c.reg dst - c.reg src))
  | .shrImm dst count, c => some (c.set dst (c.reg dst >>> count))
  | .xor dst src, c => some (c.set dst (c.reg dst ^^^ c.reg src))
  | .orImm dst value, c => some (c.set dst (c.reg dst ||| value))
  | .addImm dst value, c => some (c.set dst (c.reg dst + value))
  | .storeAbs addr src, c => c.store mode addr (c.reg src)
  | .store base offset src, c => c.store mode (c.reg base + offset) (c.reg src)
  | .storeImm base offset value, c => c.store mode (c.reg base + offset) value
  | .push src, c => c.push mode (c.reg src)
  | .pushImm value, c => c.push mode value
  | .pop dst, c => do
      let value ← c.load mode (c.reg .esp)
      some ((c.set .esp (c.reg .esp + 4)).set dst value)
  | .repStosd, c => repStosd mode (c.reg .ecx).toNat c
  | .movFromCr dst src, c => some (c.set dst (c.control src))
  | .movToCr3 src, c => some { c with control := Function.update c.control .cr3 (c.reg src) }
  | .movToCr4 src, c => some { c with control := Function.update c.control .cr4 (c.reg src) }
  | .rdmsr, c =>
    let value := c.msr (c.reg .ecx)
    some ((c.set .eax value.toUInt32).set .edx (value >>> 32).toUInt32)
  | .wrmsr, c =>
    let value := (c.reg .edx).toUInt64 <<< 32 ||| (c.reg .eax).toUInt64
    some { c with msr := Function.update c.msr (c.reg .ecx) value }
  | .lgdt addr, c => do
      -- two bytes of limit, then the base
      let mapping ← c.mapping mode addr
      some { c with gdt := c.mem.load32 (mapping.address + 2) }

/-- A block of instructions. -/
def effects (mode : Mode) (ops : List Op) (c : Core) : Option Core :=
  ops.foldlM (fun c op => effect mode op c) c

def exec (gibPages : Bool) : Instr → State → Option State
  | .op op, s =>
    (effect ⟨gibPages, s.paging⟩ op s.toCore).map fun c => { s with toCore := c, pc := s.pc + 1 }
  | .movToCr0 src, s =>
    -- `PG` is bit 31, `PE` is bit 0
    let value := s.reg src
    let s := { s with control := Function.update s.control .cr0 value, pc := s.pc + 1 }
    if value.toNat.testBit 31 then
      if value.toNat.testBit 0 ∧ s.FourLevels then some { s with paging := true } else none
    else some { s with paging := false }
  | .loop target, s =>
    let count := s.reg .ecx - 1
    some { s with toCore := s.set .ecx count, pc := if count = 0 then s.pc + 1 else target }
  | .retf, s => do
      let mode : Mode := ⟨gibPages, s.paging⟩
      let offset ← s.load mode (s.reg .esp)
      let selector ← s.load mode (s.reg .esp + 4)
      let descriptor ← s.loadDescriptor mode (s.gdt + (selector &&& 0xfff8))
      some { s with
        toCore := s.set .esp (s.reg .esp + 8)
        far := some ⟨selector &&& 0xffff, descriptor, offset⟩ }

/-- The instruction is fetched through the page tables, which have to lead to where it is. -/
def step (gibPages : Bool) (p : Program) (s : State) : Option State := do
  let fetched ← s.mapping ⟨gibPages, s.paging⟩ (p.addr s.pc)
  if fetched.address = (p.addr s.pc).toNat ∧ s.far = none then
    exec gibPages (← p.code[s.pc]?) s
  else none

def Reaches (gibPages : Bool) (p : Program) : State → State → Prop :=
  Relation.ReflTransGen fun s t => step gibPages p s = some t

/-! ## Rules -/

section Rules

variable {gibPages : Bool} {p : Program} {s : State}

/-- One step, when the instruction is where it is fetched from. -/
theorem step_of_fetched {instr : Instr} {mapping : PageWalk.Mapping}
    (hfetch : s.mapping ⟨gibPages, s.paging⟩ (p.addr s.pc) = some mapping)
    (haddress : mapping.address = (p.addr s.pc).toNat) (hfar : s.far = none)
    (hinstr : p.code[s.pc]? = some instr) : step gibPages p s = exec gibPages instr s := by
  rw [step, hfetch]
  show (if mapping.address = _ ∧ s.far = none then _ else none) = _
  rw [if_pos ⟨haddress, hfar⟩, hinstr]
  rfl

/-- The state at an instruction, as long as paging is off. -/
structure At (s : State) (pc : ℕ) : Prop where
  pc_eq : s.pc = pc
  far : s.far = none
  paging : s.paging = false

theorem At.step {pc : ℕ} (hat : At s pc) {instr : Instr} (hinstr : p.code[pc]? = some instr) :
    Ia32.step gibPages p s = exec gibPages instr s := by
  obtain ⟨rfl, hfar, hpaging⟩ := hat
  have hfetch : s.mapping ⟨gibPages, s.paging⟩ (p.addr s.pc) =
      some ⟨(p.addr s.pc).toNat, true, true⟩ := by
    rw [hpaging]
    rfl
  exact step_of_fetched hfetch rfl hfar hinstr

/-- A block runs to its end. -/
theorem At.block {pc : ℕ} (hat : At s pc) (p : Program) (ops : List Op) {c : Core}
    (hcode : ops.map Instr.op <+: p.code.drop pc)
    (heffects : effects ⟨gibPages, false⟩ ops s.toCore = some c) :
    Reaches gibPages p s { s with toCore := c, pc := pc + ops.length } ∧
      At { s with toCore := c, pc := pc + ops.length } (pc + ops.length) := by
  refine ⟨?_, rfl, hat.far, hat.paging⟩
  obtain ⟨rest, hcode⟩ := hcode
  induction ops generalizing s pc with
  | nil =>
    obtain rfl := Option.some.inj heffects
    obtain ⟨rfl, -, -⟩ := hat
    exact .refl
  | cons op ops ih =>
    obtain ⟨next, hnext, heffects⟩ := Option.bind_eq_some_iff.mp heffects
    change effect _ op s.toCore = some next at hnext
    have hinstr : p.code[pc]? = some (.op op) := by
      rw [← List.head?_drop, ← hcode]
      rfl
    have hstep : Ia32.step gibPages p s = some { s with toCore := next, pc := pc + 1 } := by
      rw [hat.step hinstr, exec, hat.paging, hnext, ← hat.pc_eq]
      rfl
    have hrest : ops.map Instr.op ++ rest = p.code.drop (pc + 1) := by
      rw [← List.tail_drop, ← hcode]
      rfl
    have hreaches := ih (s := { s with toCore := next, pc := pc + 1 })
      ⟨rfl, hat.far, hat.paging⟩ heffects hrest
    rw [Nat.add_right_comm, Nat.add_assoc] at hreaches
    exact .head hstep hreaches

end Rules

theorem stosd_eq (gibPages : Bool) {c : Core} (hdirection : c.direction = false) :
    stosd ⟨gibPages, false⟩ c = some { (c.set .edi (c.reg .edi + 4)).set .ecx (c.reg .ecx - 1) with
      mem := c.mem.store32 (c.reg .edi).toNat (c.reg .eax) } := by
  obtain ⟨_, _, _, direction, _, _, _⟩ := c
  obtain rfl : direction = false := hdirection
  rfl

/-- `rep stosd` forwards and without paging fills memory. -/
theorem repStosd_eq (gibPages : Bool) {c : Core} {n : ℕ} (hdirection : c.direction = false)
    (hroom : (c.reg .edi).toNat + 4 * n < 2 ^ 32) :
    ∃ edi ecx, repStosd ⟨gibPages, false⟩ n c = some { (c.set .edi edi).set .ecx ecx with
      mem := c.mem.fill32 (c.reg .edi).toNat (c.reg .eax) n } := by
  induction n generalizing c with
  | zero =>
    refine ⟨c.reg .edi, c.reg .ecx, ?_⟩
    simp only [Core.set, Function.update_eq_self]
    rfl
  | succ n ih =>
    have hnext : (c.reg .edi + 4).toNat = (c.reg .edi).toNat + 4 := by
      rw [UInt32.toNat_add]
      exact Nat.mod_eq_of_lt (by show _ + 4 < 2 ^ 32; omega)
    obtain ⟨edi, ecx, hrun⟩ :=
      ih (c := { (c.set .edi (c.reg .edi + 4)).set .ecx (c.reg .ecx - 1) with
        mem := c.mem.store32 (c.reg .edi).toNat (c.reg .eax) }) hdirection (by
          show (c.reg .edi + 4).toNat + 4 * n < 2 ^ 32
          omega)
    refine ⟨edi, ecx, ?_⟩
    rw [repStosd, stosd_eq gibPages hdirection]
    refine hrun.trans ?_
    have hmem : ((c.mem.store32 (c.reg .edi).toNat (c.reg .eax)).fill32 (c.reg .edi + 4).toNat
        (c.reg .eax) n) = c.mem.fill32 (c.reg .edi).toNat (c.reg .eax) (n + 1) := by
      rw [hnext]
      rfl
    have hreg : Function.update (Function.update (Function.update (Function.update c.reg
        .edi (c.reg .edi + 4)) .ecx (c.reg .ecx - 1)) .edi edi) .ecx ecx =
        Function.update (Function.update c.reg .edi edi) .ecx ecx := by
      funext r
      cases r <;> rfl
    exact congrArg₂ (fun reg mem => some { c with reg := reg, mem := mem }) hreg hmem

end Hyperion.Lib.Ia32
