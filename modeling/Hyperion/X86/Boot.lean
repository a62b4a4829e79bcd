import Hyperion.Hal.Multiboot
import Hyperion.Lib.Amd64
import Hyperion.Lib.Ia32

/-!
# The Multiboot2 entry

`_start` of `arch/x86_64/boot.rs`.  The loader enters in 32-bit protected mode with the address of
its information block in `ebx`.  The code clears `.bss`, which holds the page tables and the stack,
builds the tables, turns on long mode and goes on in 64-bit code, which calls
`hyperion_kernel_kmain_trampoline`.

The tables map the lowest GiB and, on a processor with pages of 1 GiB, the last GiB below 4 GiB,
each to itself (`translate_tables`).  So the code that turns on paging finds its next instruction,
its stack and its descriptor table.  The address of the information block is kept in `edi`, but the
loop over the page directory uses `edi` as well: what the trampoline gets is the end of the
directory.
-/

namespace Hyperion.X86.Boot

open Hyperion.Lib Hyperion.Hal Ia32

/-- The symbols of the boot code.  `.data` comes before `.bss`; the tables and the stack are one
piece of `.bss`, in this order. -/
structure Layout where
  bssStart : UInt32
  bssEnd : UInt32
  pml4 : UInt32
  gdt : UInt32
  start64 : UInt32
  trampoline : UInt64
  /-- the addresses of the instructions -/
  text : ℕ → UInt32
  bssStart_aligned : 4 ∣ bssStart.toNat
  bssEnd_aligned : 4 ∣ bssEnd.toNat
  pml4_aligned : 4096 ∣ pml4.toNat
  gdt_aligned : 16 ∣ gdt.toNat
  gdt_le : gdt.toNat + 34 ≤ bssStart.toNat
  bssStart_le : bssStart.toNat ≤ pml4.toNat
  stack_le : pml4.toNat + 0x13000 ≤ bssEnd.toNat
  bssEnd_lt : bssEnd.toNat < 2 ^ 30
  text_lt : ∀ i, (text i).toNat < 2 ^ 30

namespace Layout

variable (layout : Layout)

@[irreducible] def pdpt : UInt32 := layout.pml4 + 0x1000
@[irreducible] def pd : UInt32 := layout.pml4 + 0x2000
@[irreducible] def stackBottom : UInt32 := layout.pml4 + 0x3000
@[irreducible] def stackTop : UInt32 := layout.pml4 + 0x13000
@[irreducible] def gdtPointer : UInt32 := layout.gdt + 24

/-- All addresses of the boot code, relative to the first table. -/
theorem places :
    layout.pdpt.toNat = layout.pml4.toNat + 0x1000 ∧
    layout.pd.toNat = layout.pml4.toNat + 0x2000 ∧
    layout.stackBottom.toNat = layout.pml4.toNat + 0x3000 ∧
    layout.stackTop.toNat = layout.pml4.toNat + 0x13000 ∧
    layout.gdtPointer.toNat = layout.gdt.toNat + 24 ∧
    (layout.pdpt + 24).toNat = layout.pml4.toNat + 0x1018 ∧
    (layout.stackTop - 4).toNat = layout.pml4.toNat + 0x12ffc ∧
    (layout.stackTop - 8).toNat = layout.pml4.toNat + 0x12ff8 ∧
    layout.gdt.toNat + 34 ≤ layout.bssStart.toNat ∧ layout.bssStart.toNat ≤ layout.pml4.toNat ∧
    layout.pml4.toNat + 0x13000 ≤ layout.bssEnd.toNat ∧ layout.bssEnd.toNat < 2 ^ 30 := by
  have hgdt := layout.gdt_le
  have hbss := layout.bssStart_le
  have hstack := layout.stack_le
  have hend := layout.bssEnd_lt
  unfold pdpt pd stackBottom stackTop gdtPointer
  simp only [UInt32.toNat_add, UInt32.toNat_sub, UInt32.reduceToNat]
  omega

end Layout

/-! ## The code -/

section Code

variable (layout : Layout)

/-- From `_start` to the words of `.bss` in `ecx`. -/
def prologue : List Op :=
  [ .cld, .cli,
    .mov .edi .ebx, .mov .esi .eax,
    .movImm .esp layout.stackTop,
    .push .edi,
    .movImm .edi layout.bssStart, .movImm .ecx layout.bssEnd, .sub .ecx .edi, .shrImm .ecx 2,
    .xor .eax .eax ]

/-- The upper tables, and the registers for the loop over the page directory. -/
def upperTables : List Op :=
  [ .pop .edi,
    .movImm .eax layout.pdpt, .orImm .eax 0x3, .storeAbs layout.pml4 .eax,
    .movImm .eax layout.pd, .orImm .eax 0x3, .storeAbs layout.pdpt .eax,
    .movImm .eax 0xC0000083, .storeAbs (layout.pdpt + 24) .eax,
    .movImm .edi layout.pd, .movImm .ecx 512, .movImm .eax 0x83 ]

/-- The body of the loop over the page directory. -/
def fillEntry : List Op :=
  [.store .edi 0 .eax, .storeImm .edi 4 0, .addImm .edi 8, .addImm .eax 0x200000]

/-- Up to the write of `cr0`. -/
def enableLongMode : List Op :=
  [ .movFromCr .eax .cr4, .orImm .eax 0x20, .movToCr4 .eax, -- `PAE`
    .movImm .eax layout.pml4, .movToCr3 .eax,
    .movImm .ecx 0xC0000080, .rdmsr, .orImm .eax 0x100, .wrmsr, -- `LME`
    .movFromCr .eax .cr0, .orImm .eax 0x80000001 ] -- `PG` and `PE`

/-- What runs through the tables, up to `retf`. -/
def farFrame : List Op :=
  [.lgdt layout.gdtPointer, .movImm .eax layout.start64, .pushImm 0x08, .push .eax]

def start : List Instr :=
  (prologue layout).map Instr.op ++ Instr.op .repStosd ::
  ((upperTables layout).map Instr.op ++
  (fillEntry.map Instr.op ++ Instr.loop 24 ::
  ((enableLongMode layout).map Instr.op ++ Instr.movToCr0 .eax ::
  ((farFrame layout).map Instr.op ++ [Instr.retf]))))

def program : Program := ⟨start layout, layout.text⟩

end Code

/-! ## The tables -/

/-- The three tables in memory, by the numbers in their entries. -/
structure Tables (layout : Layout) (mem : Memory) : Prop where
  pml4 : ∀ i < 512, (mem.load64 (layout.pml4.toNat + 8 * i)).toNat =
    if i = 0 then layout.pdpt.toNat + 3 else 0
  pdpt : ∀ i < 512, (mem.load64 (layout.pdpt.toNat + 8 * i)).toNat =
    if i = 0 then layout.pd.toNat + 3 else if i = 3 then 0xC0000083 else 0
  pd : ∀ i < 512, (mem.load64 (layout.pd.toNat + 8 * i)).toNat = i * 2 ^ 21 + 0x83

/-- What the tables map: the lowest GiB, and the last one below 4 GiB if there are pages of
that size. -/
def Mapped (gibPages : Bool) (va : ℕ) : Prop :=
  va < 2 ^ 30 ∨ gibPages ∧ 3 * 2 ^ 30 ≤ va ∧ va < 2 ^ 32

instance (gibPages : Bool) (va : ℕ) : Decidable (Mapped gibPages va) :=
  inferInstanceAs (Decidable (_ ∨ _))

section Translate

open PageWalk
open TableWalk (field)

/-- The entry of a table: its address, writable and present. -/
theorem walk_table {gibPages : Bool} {mem : Memory} {levels table va next : ℕ}
    (hentry : (mem.load64 (table + 8 * (va / 2 ^ (12 + 9 * (levels + 1)) % 512))).toNat = next + 3)
    (haligned : 4096 ∣ next) (hlt : next < 2 ^ 32) {mapping : Option Mapping}
    (hnext : walk gibPages mem levels next va = mapping)
    (hkernel : ∀ m ∈ mapping, m.user = false) :
    walk gibPages mem (levels + 1) table va = mapping := by
  generalize hload : mem.load64 (table + 8 * (va / 2 ^ (12 + 9 * (levels + 1)) % 512)) = entry
    at hentry
  obtain ⟨page, rfl⟩ := haligned
  have hpresent : field entry 0 1 = 1 := by
    rw [field, hentry]
    omega
  have htable : field entry 7 1 = 0 := by
    rw [field, hentry]
    omega
  have hwritable : field entry 1 1 = 1 := by
    rw [field, hentry]
    omega
  have haddress : field entry 12 40 * 2 ^ 12 = 4096 * page := by
    rw [field, hentry]
    omega
  rw [walk_of_table hload hpresent htable, haddress, hnext]
  cases mapping with
  | none => rfl
  | some m =>
    have huser := hkernel m rfl
    obtain ⟨address, writable, user⟩ := m
    obtain rfl : user = false := huser
    rw [Option.map_some, Mapping.below, hwritable]
    simp

/-- The entry of a large page at its own address. -/
theorem leaf_large {entry : UInt64} {shift va : ℕ} (hshift : shift = 21 ∨ shift = 30)
    (hva : va < 2 ^ 32) (hentry : entry.toNat = va / 2 ^ shift * 2 ^ shift + 0x83) :
    leaf entry shift va = some ⟨va, true, false⟩ := by
  have hwritable : field entry 1 1 = 1 := by
    rw [field, hentry]
    rcases hshift with rfl | rfl <;> omega
  have huser : field entry 2 1 = 0 := by
    rw [field, hentry]
    rcases hshift with rfl | rfl <;> omega
  have hreserved : field entry 13 (shift - 13) = 0 := by
    rw [field, hentry]
    rcases hshift with rfl | rfl <;> norm_num <;> omega
  have haddress : field entry shift (52 - shift) * 2 ^ shift + va % 2 ^ shift = va := by
    rw [field, hentry]
    rcases hshift with rfl | rfl <;> norm_num <;> omega
  rw [leaf, if_pos hreserved, haddress, hwritable, huser]
  rfl

variable {layout : Layout} {mem : Memory} (tables : Tables layout mem) (gibPages : Bool)

include tables

/-- The page directory maps the lowest GiB. -/
theorem walk_pd {va : ℕ} (hva : va < 2 ^ 30) :
    walk gibPages mem 1 layout.pd.toNat va = some ⟨va, true, false⟩ := by
  have hindex : va / 2 ^ (12 + 9 * (0 + 1)) % 512 = va / 2 ^ 21 := by
    norm_num
    omega
  have hlt : va / 2 ^ 21 < 512 := by omega
  have hentry := tables.pd _ hlt
  generalize hload : mem.load64 (layout.pd.toNat + 8 * (va / 2 ^ 21)) = entry at hentry
  rw [← hindex] at hload
  rw [walk_of_large hload (by rw [field, hentry]; omega) (by rw [field, hentry]; omega)]
  exact leaf_large (.inl rfl) (by omega) hentry

/-- The fourth entry of the table above is a page of 1 GiB. -/
theorem walk_pdpt {va : ℕ} (hva : va < 2 ^ 39) :
    walk gibPages mem 2 layout.pdpt.toNat va =
      if Mapped gibPages va then some ⟨va, true, false⟩ else none := by
  have hindex : va / 2 ^ (12 + 9 * (1 + 1)) % 512 = va / 2 ^ 30 := by
    norm_num
    omega
  have hlt : va / 2 ^ 30 < 512 := by omega
  have hentry := tables.pdpt _ hlt
  rw [← hindex] at hentry
  split_ifs at hentry with hzero hthree
  · have hlow : va < 2 ^ 30 := by omega
    rw [if_pos (show Mapped gibPages va from Or.inl hlow)]
    refine walk_table hentry ?_ ?_ (walk_pd tables gibPages hlow) ?_
    · rw [layout.places.2.1]
      exact Nat.dvd_add layout.pml4_aligned (by decide)
    · exact UInt32.toNat_lt _
    · rintro m hm
      obtain rfl := Option.some.inj hm
      rfl
  · have hhigh : 3 * 2 ^ 30 ≤ va ∧ va < 2 ^ 32 := by omega
    generalize hload : mem.load64
      (layout.pdpt.toNat + 8 * (va / 2 ^ (12 + 9 * (1 + 1)) % 512)) = entry at hentry
    rw [walk_of_large hload (by rw [field, hentry]; rfl) (by rw [field, hentry]; rfl)]
    cases gibPages with
    | false =>
      have hunmapped : ¬Mapped false va := by
        rintro (hlow | ⟨hfalse, -⟩)
        · omega
        · cases hfalse
      rw [if_neg hunmapped]
      rfl
    | true =>
      rw [if_pos (show Mapped true va from Or.inr ⟨rfl, hhigh⟩)]
      exact leaf_large (.inr rfl) (by omega) (by omega)
  · generalize hload : mem.load64
      (layout.pdpt.toNat + 8 * (va / 2 ^ (12 + 9 * (1 + 1)) % 512)) = entry at hentry
    rw [walk_of_absent hload (by rw [field, hentry]; rfl), if_neg (by rw [Mapped]; omega)]

/-- What is mapped is mapped to itself, for the kernel, and nothing else is mapped. -/
theorem translate_tables (va : ℕ) :
    PageWalk.translate gibPages mem layout.pml4.toNat va =
      if Mapped gibPages va then some ⟨va, true, false⟩ else none := by
  have hindex : va / 2 ^ (12 + 9 * (2 + 1)) % 512 = va / 2 ^ 39 % 512 := rfl
  have hentry := tables.pml4 (va / 2 ^ 39 % 512) (Nat.mod_lt _ (by norm_num))
  rw [← hindex] at hentry
  have hroot : layout.pml4.toNat / 2 ^ 12 * 2 ^ 12 = layout.pml4.toNat :=
    Nat.div_mul_cancel layout.pml4_aligned
  rw [PageWalk.translate, hroot]
  by_cases hcanonical : Canonical va
  · rw [if_pos hcanonical]
    split_ifs at hentry with hzero
    · have hlow : va < 2 ^ 39 := by
        rw [Canonical] at hcanonical
        rw [hindex] at hzero
        omega
      refine walk_table hentry ?_ (UInt32.toNat_lt _) (walk_pdpt tables gibPages hlow) ?_
      · rw [layout.places.1]
        exact Nat.dvd_add layout.pml4_aligned (by decide)
      · intro m hm
        split_ifs at hm
        · obtain rfl := Option.some.inj hm
          rfl
        · cases hm
    · have hhigh : 2 ^ 39 ≤ va := by
        rw [hindex] at hzero
        omega
      generalize hload : mem.load64
        (layout.pml4.toNat + 8 * (va / 2 ^ (12 + 9 * (2 + 1)) % 512)) = entry at hentry
      rw [walk_of_absent hload (by rw [field, hentry]; rfl), if_neg (by rw [Mapped]; omega)]
  · rw [if_neg hcanonical, if_neg]
    intro hmapped
    refine hcanonical (.inl ?_)
    rw [Mapped] at hmapped
    omega

end Translate

/-! ## Memory -/

/-- The words of the tables when the page directory has `k` entries. -/
def tableWord (layout : Layout) (k j : ℕ) : UInt32 :=
  if j = 0 then layout.pdpt ||| 3
  else if j = 1024 then layout.pd ||| 3
  else if j = 1030 then 0xC0000083
  else if 2048 ≤ j ∧ j < 2048 + 2 * k ∧ j % 2 = 0 then UInt32.ofNat (0x83 + 0x100000 * (j - 2048))
  else 0

/-- Only `.bss` has changed: it holds the tables, and a stack that is zero below its last two
words. -/
structure Laid (layout : Layout) (word : ℕ → UInt32) (before mem : Memory) : Prop where
  outside : ∀ a ∉ Set.Ico layout.bssStart.toNat layout.bssEnd.toNat, mem a = before a
  table : ∀ j < 3072, mem.load32 (layout.pml4.toNat + 4 * j) = word j
  stack : ∀ a ∈ Set.Ico layout.stackBottom.toNat (layout.stackTop - 8).toNat, mem a = 0

section Laid

variable {layout : Layout} {word : ℕ → UInt32} {before mem : Memory} {addr : ℕ}

theorem Laid.store_table (hlaid : Laid layout word before mem) {j : ℕ} (hj : j < 3072)
    (haddr : addr = layout.pml4.toNat + 4 * j) (value : UInt32) :
    Laid layout (Function.update word j value) before (mem.store32 addr value) := by
  have hplaces := layout.places
  subst haddr
  refine ⟨?_, ?_, ?_⟩
  · intro a ha
    rw [Memory.store32_apply_of_notMem, hlaid.outside a ha]
    rw [Set.mem_Ico] at ha ⊢
    omega
  · intro i hi
    by_cases heq : i = j
    · rw [heq, Memory.load32_store32_self, Function.update_self]
    · rw [Memory.load32_store32_of_disjoint (by omega), hlaid.table i hi,
        Function.update_of_ne heq]
  · intro a ha
    rw [Memory.store32_apply_of_notMem, hlaid.stack a ha]
    rw [Set.mem_Ico] at ha ⊢
    omega

theorem Laid.store_stack (hlaid : Laid layout word before mem)
    (haddr : (layout.stackTop - 8).toNat ≤ addr) (haddr' : addr + 4 ≤ layout.stackTop.toNat)
    (value : UInt32) : Laid layout word before (mem.store32 addr value) := by
  have hplaces := layout.places
  refine ⟨?_, ?_, ?_⟩
  · intro a ha
    rw [Memory.store32_apply_of_notMem, hlaid.outside a ha]
    rw [Set.mem_Ico] at ha ⊢
    omega
  · intro i hi
    rw [Memory.load32_store32_of_disjoint (by omega), hlaid.table i hi]
  · intro a ha
    rw [Memory.store32_apply_of_notMem, hlaid.stack a ha]
    rw [Set.mem_Ico] at ha ⊢
    omega

/-- An address of a page with the bits of a table entry. -/
theorem toNat_or_three {page : UInt32} (hpage : 4096 ∣ page.toNat) :
    (page ||| 3).toNat = page.toNat + 3 := by
  obtain ⟨k, hk⟩ := hpage
  rw [UInt32.toNat_or, hk]
  exact (Nat.two_pow_add_eq_or_of_lt (show 3 < 2 ^ 12 by norm_num) k).symm

/-- The entries of the finished tables. -/
theorem Laid.tables (hlaid : Laid layout (tableWord layout 512) before mem) :
    Tables layout mem := by
  have hplaces := layout.places
  obtain ⟨page, hpage⟩ := layout.pml4_aligned
  have hentry : ∀ i < 1536, (mem.load64 (layout.pml4.toNat + 8 * i)).toNat =
      (tableWord layout 512 (2 * i)).toNat := by
    intro i hi
    have hodd : tableWord layout 512 (2 * i + 1) = 0 := by
      unfold tableWord
      rw [if_neg (by omega), if_neg (by omega), if_neg (by omega), if_neg (by omega)]
    rw [Memory.toNat_load64, show 8 * i = 4 * (2 * i) by omega, hlaid.table _ (by omega),
      show layout.pml4.toNat + 4 * (2 * i) + 4 = layout.pml4.toNat + 4 * (2 * i + 1) by omega,
      hlaid.table _ (by omega), hodd]
    rfl
  have hpdpt : (layout.pdpt ||| 3).toNat = layout.pdpt.toNat + 3 := toNat_or_three (by omega)
  have hpd : (layout.pd ||| 3).toNat = layout.pd.toNat + 3 := toNat_or_three (by omega)
  refine ⟨?_, ?_, ?_⟩
  · intro i hi
    rw [hentry i (by omega), tableWord]
    split_ifs <;> first | omega | rfl
  · intro i hi
    rw [show layout.pdpt.toNat + 8 * i = layout.pml4.toNat + 8 * (512 + i) by omega,
      hentry _ (by omega), tableWord]
    split_ifs <;> first | omega | rfl
  · intro i hi
    rw [show layout.pd.toNat + 8 * i = layout.pml4.toNat + 8 * (1024 + i) by omega,
      hentry _ (by omega), tableWord, if_neg (by omega), if_neg (by omega), if_neg (by omega),
      if_pos (by omega), UInt32.toNat_ofNat_of_lt' (by show _ < 2 ^ 32; omega)]
    omega

end Laid

/-! ## The blocks without paging -/

section Blocks

variable (layout : Layout) (gibPages : Bool) (c : Core)

theorem effects_prologue :
    ∃ d, effects ⟨gibPages, false⟩ (prologue layout) c = some d ∧ d.direction = false ∧
      d.reg .edi = layout.bssStart ∧ d.reg .ecx = (layout.bssEnd - layout.bssStart) >>> 2 ∧
      d.reg .eax = 0 ∧ d.reg .esp = layout.stackTop - 4 ∧ d.reg .esi = c.reg .eax ∧
      d.control = c.control ∧ d.msr = c.msr ∧
      d.mem = c.mem.store32 (layout.stackTop - 4).toNat (c.reg .ebx) :=
  ⟨_, rfl, rfl, rfl, rfl, UInt32.xor_self, rfl, rfl, rfl, rfl, rfl⟩

theorem effects_upperTables :
    ∃ d, effects ⟨gibPages, false⟩ (upperTables layout) c = some d ∧
      d.reg .edi = layout.pd ∧ d.reg .ecx = 512 ∧ d.reg .eax = 0x83 ∧
      d.reg .esp = c.reg .esp + 4 ∧ d.reg .esi = c.reg .esi ∧
      d.control = c.control ∧ d.msr = c.msr ∧
      d.mem = ((c.mem.store32 layout.pml4.toNat (layout.pdpt ||| 3)).store32 layout.pdpt.toNat
        (layout.pd ||| 3)).store32 (layout.pdpt + 24).toNat 0xC0000083 :=
  ⟨_, rfl, rfl, rfl, rfl, rfl, rfl, rfl, rfl, rfl⟩

theorem effects_fillEntry :
    ∃ d, effects ⟨gibPages, false⟩ fillEntry c = some d ∧
      d.reg .edi = c.reg .edi + 8 ∧ d.reg .ecx = c.reg .ecx ∧ d.reg .eax = c.reg .eax + 0x200000 ∧
      d.reg .esp = c.reg .esp ∧ d.reg .esi = c.reg .esi ∧ d.control = c.control ∧
      d.msr = c.msr ∧
      d.mem = (c.mem.store32 (c.reg .edi + 0).toNat (c.reg .eax)).store32 (c.reg .edi + 4).toNat
        0 :=
  ⟨_, rfl, rfl, rfl, rfl, rfl, rfl, rfl, rfl, rfl⟩

theorem effects_enableLongMode :
    ∃ d, effects ⟨gibPages, false⟩ (enableLongMode layout) c = some d ∧
      d.reg .eax = c.control .cr0 ||| 0x80000001 ∧ d.reg .edi = c.reg .edi ∧
      d.reg .esp = c.reg .esp ∧ d.reg .esi = c.reg .esi ∧
      d.control .cr3 = layout.pml4 ∧ d.control .cr4 = c.control .cr4 ||| 0x20 ∧
      d.msr efer = ((c.msr efer) >>> 32).toUInt32.toUInt64 <<< 32 |||
        ((c.msr efer).toUInt32 ||| 0x100).toUInt64 ∧
      d.mem = c.mem :=
  ⟨_, rfl, rfl, rfl, rfl, rfl, rfl, rfl, rfl, rfl⟩

end Blocks

/-! ## The run -/

/-- The descriptor of the 64-bit code segment. -/
def code64 : UInt64 := 0x00AF9A000000FFFF

/-- What the boot code relies on when it is entered: paging is off, the processor is not set up for
five levels, and the image has been loaded, with the descriptor table in `.data`. -/
structure Loaded (layout : Layout) (s : State) : Prop where
  start : At s 0
  la57 : (s.control .cr4).toNat.testBit 12 = false
  gdt_code64 : s.mem.load64 (layout.gdt.toNat + 8) = code64
  gdt_pointer : s.mem.load32 (layout.gdtPointer.toNat + 2) = layout.gdt

/-- The registers in the loop over the page directory, before entry `k`. -/
structure Filling (layout : Layout) (c : Core) (k : ℕ) (d : Core) : Prop where
  edi : (d.reg .edi).toNat = layout.pd.toNat + 8 * k
  eax : d.reg .eax = UInt32.ofNat (0x83 + 0x200000 * k)
  ecx : (d.reg .ecx).toNat = 512 - k
  esp : d.reg .esp = layout.stackTop
  esi : d.reg .esi = c.reg .eax
  control : d.control = c.control
  msr : d.msr = c.msr
  laid : Laid layout (tableWord layout k) c.mem d.mem

section Run

variable (layout : Layout) (gibPages : Bool) {s : State}

theorem toNat_words_bss :
    layout.bssStart.toNat + 4 * ((layout.bssEnd - layout.bssStart) >>> 2).toNat =
      layout.bssEnd.toNat := by
  have hplaces := layout.places
  have hstart := layout.bssStart_aligned
  have hend := layout.bssEnd_aligned
  have hle : layout.bssStart ≤ layout.bssEnd := by
    rw [UInt32.le_iff_toNat_le]
    omega
  rw [UInt32.toNat_shiftRight, UInt32.toNat_sub_of_le _ _ hle, Nat.shiftRight_eq_div_pow]
  show _ + 4 * (_ / 4) = _
  omega

/-- Clearing `.bss` clears the word that was pushed, too. -/
theorem exists_cleared (hstart : At s 0) :
    ∃ t, Reaches gibPages (program layout) s t ∧ At t 12 ∧ t.reg .esp = layout.stackTop - 4 ∧
      t.reg .esi = s.reg .eax ∧ t.control = s.control ∧ t.msr = s.msr ∧
      Laid layout (fun _ => 0) s.mem t.mem := by
  obtain ⟨c, heffects, hdirection, hedi, hecx, heax, hesp, hesi, hcontrol, hmsr, hmem⟩ :=
    effects_prologue layout gibPages s.toCore
  obtain ⟨hreaches, hat⟩ := hstart.block (program layout) (prologue layout) ⟨_, rfl⟩ heffects
  have hplaces := layout.places
  have hregion : layout.bssStart.toNat + 4 * (c.reg .ecx).toNat = layout.bssEnd.toNat := by
    rw [hecx]
    exact toNat_words_bss layout
  obtain ⟨edi, ecx, hfill⟩ := repStosd_eq gibPages (n := (c.reg .ecx).toNat) hdirection
    (by rw [hedi]; omega)
  rw [hedi, heax] at hfill
  have heffects' : effects ⟨gibPages, false⟩ [.repStosd] c = some _ := congrArg (· >>= pure) hfill
  obtain ⟨hreaches', hat'⟩ := hat.block (program layout) [.repStosd] ⟨_, rfl⟩ heffects'
  refine ⟨_, hreaches.trans hreaches', hat', hesp, hesi, hcontrol, hmsr, ?_, ?_, ?_⟩
  · intro a ha
    show c.mem.fill32 _ _ _ a = _
    rw [Memory.fill32_apply_of_notMem, hmem, Memory.store32_apply_of_notMem]
    · rw [Set.mem_Ico] at ha ⊢
      omega
    · rwa [hregion]
  · intro j hj
    refine Memory.load32_eq_zero fun a ha => Memory.fill32_zero_apply ?_
    rw [hregion]
    rw [Set.mem_Ico] at ha ⊢
    omega
  · intro a ha
    refine Memory.fill32_zero_apply ?_
    rw [hregion]
    rw [Set.mem_Ico] at ha ⊢
    omega

/-- The upper tables, up to the loop. -/
theorem exists_filling (hstart : At s 0) :
    ∃ t, Reaches gibPages (program layout) s t ∧ At t 24 ∧
      Filling layout s.toCore 0 t.toCore := by
  obtain ⟨u, hreaches, hat, hesp, hesi, hcontrol, hmsr, hlaid⟩ :=
    exists_cleared layout gibPages hstart
  obtain ⟨c, heffects, hedi, hecx, heax, hesp', hesi', hcontrol', hmsr', hmem⟩ :=
    effects_upperTables layout gibPages u.toCore
  obtain ⟨hreaches', hat'⟩ := hat.block (program layout) (upperTables layout) ⟨_, rfl⟩ heffects
  have hplaces := layout.places
  have hword : Function.update (Function.update (Function.update (fun _ => 0) 0 (layout.pdpt ||| 3))
      1024 (layout.pd ||| 3)) 1030 0xC0000083 = tableWord layout 0 := by
    funext j
    simp only [Function.update_apply, tableWord]
    split_ifs <;> first | omega | rfl
  refine ⟨_, hreaches.trans hreaches', hat', ?_, heax, ?_, ?_, hesi'.trans hesi,
    hcontrol'.trans hcontrol, hmsr'.trans hmsr, ?_⟩
  · rw [hedi, Nat.mul_zero, Nat.add_zero]
  · rw [hecx]
    rfl
  · rw [hesp', hesp, UInt32.sub_add_cancel]
  · rw [hmem, ← hword]
    exact ((hlaid.store_table (by norm_num) (by omega) _).store_table (by norm_num) (by omega)
      _).store_table (by norm_num) (by omega) _

variable {layout}

/-- One turn of the loop over the page directory. -/
theorem filling_succ {c : Core} {k : ℕ} (hk : k < 512) (hat : At s 24)
    (hfilling : Filling layout c k s.toCore) :
    ∃ t, Reaches gibPages (program layout) s t ∧ At t (if k + 1 = 512 then 29 else 24) ∧
      Filling layout c (k + 1) t.toCore := by
  obtain ⟨d, heffects, hedi, hecx, heax, hesp, hesi, hcontrol, hmsr, hmem⟩ :=
    effects_fillEntry gibPages s.toCore
  obtain ⟨hreaches, hat'⟩ := hat.block (program layout) fillEntry ⟨_, rfl⟩ heffects
  have hinstr : (program layout).code[28]? = some (.loop 24) := rfl
  have hplaces := layout.places
  have hpd := hfilling.edi
  have hleft := hfilling.ecx
  have hcount : (d.reg .ecx - 1).toNat = 512 - (k + 1) := by
    rw [hecx, UInt32.toNat_sub]
    simp only [UInt32.reduceToNat]
    omega
  have hzero : d.reg .ecx - 1 = 0 ↔ k + 1 = 512 := by
    rw [← UInt32.toNat_inj, hcount, UInt32.toNat_zero]
    omega
  have haddr : (s.reg .edi + 4).toNat = layout.pml4.toNat + 4 * (2049 + 2 * k) ∧
      (s.reg .edi + 8).toNat = layout.pd.toNat + 8 * (k + 1) := by
    simp only [UInt32.toNat_add, UInt32.reduceToNat]
    omega
  have hvalue : s.reg .eax = UInt32.ofNat (0x83 + 0x100000 * (2048 + 2 * k - 2048)) := by
    rw [hfilling.eax, show 0x83 + 0x200000 * k = 0x83 + 0x100000 * (2048 + 2 * k - 2048) by omega]
  have hword : Function.update (Function.update (tableWord layout k) (2048 + 2 * k) (s.reg .eax))
      (2049 + 2 * k) 0 = tableWord layout (k + 1) := by
    funext j
    by_cases heven : j = 2048 + 2 * k
    · rw [heven, Function.update_of_ne (by omega), Function.update_self, tableWord,
        if_neg (by omega), if_neg (by omega), if_neg (by omega), if_pos (by omega), hvalue]
    · simp only [Function.update_apply, tableWord, if_neg heven]
      split_ifs <;> first | omega | rfl
  refine ⟨_, hreaches.tail (hat'.step hinstr), ⟨if_congr hzero rfl rfl, hat.far, hat.paging⟩,
    ?_, ?_, hcount, hesp.trans hfilling.esp, hesi.trans hfilling.esi,
    hcontrol.trans hfilling.control, hmsr.trans hfilling.msr, ?_⟩
  · show (d.reg .edi).toNat = _
    rw [hedi, haddr.2]
  · show d.reg .eax = _
    have hstep : UInt32.ofNat 0x200000 = 0x200000 := rfl
    rw [heax, hfilling.eax, Nat.mul_succ, ← Nat.add_assoc,
      UInt32.ofNat_add (0x83 + 0x200000 * k), hstep]
  · show Laid layout _ _ d.mem
    rw [hmem, ← hword]
    refine (hfilling.laid.store_table (by omega) ?_ _).store_table (by omega) haddr.1 _
    rw [UInt32.add_zero]
    omega

/-- The whole loop. -/
theorem filling_all {c : Core} {k : ℕ} (hk : k < 512) (hat : At s 24)
    (hfilling : Filling layout c k s.toCore) :
    ∃ t, Reaches gibPages (program layout) s t ∧ At t 29 ∧ Filling layout c 512 t.toCore := by
  induction hleft : 511 - k generalizing k s with
  | zero =>
    obtain rfl : k = 511 := by omega
    exact filling_succ gibPages hk hat hfilling
  | succ n ih =>
    obtain ⟨t, hreaches, hat', hfilling'⟩ := filling_succ gibPages hk hat hfilling
    rw [if_neg (by omega)] at hat'
    obtain ⟨t', hreaches', hdone⟩ := ih (by omega) hat' hfilling' (by omega)
    exact ⟨t', hreaches.trans hreaches', hdone⟩

/-! ## Under the tables -/

/-- A bit that is set by `or`. -/
theorem testBit_or {value mask : UInt32} {i : ℕ} (hmask : mask.toNat.testBit i = true) :
    (value ||| mask).toNat.testBit i = true := by
  rw [UInt32.toNat_or, Nat.testBit_or, hmask, Bool.or_true]

end Run

/-- Paging is on, with the boot tables, at an instruction. -/
structure Paged (layout : Layout) (c : Core) (pc : ℕ) (s : State) : Prop where
  pc_eq : s.pc = pc
  far : s.far = none
  paging : s.paging = true
  cr3 : s.control .cr3 = layout.pml4
  edi : s.reg .edi = layout.stackBottom
  esi : s.reg .esi = c.reg .eax
  laid : Laid layout (tableWord layout 512) c.mem s.mem

section Under

variable {layout : Layout} (gibPages : Bool) {s : State} {c : Core}

/-- The page tables are turned on. -/
theorem exists_paged (hat : At s 29) (hfilling : Filling layout c 512 s.toCore)
    (hla57 : (c.control .cr4).toNat.testBit 12 = false) :
    ∃ t, Reaches gibPages (program layout) s t ∧ t.reg .esp = layout.stackTop ∧
      Paged layout c 41 t := by
  obtain ⟨d, heffects, heax, hedi, hesp, hesi, hcr3, hcr4, hefer, hmem⟩ :=
    effects_enableLongMode layout gibPages s.toCore
  obtain ⟨hreaches, hat'⟩ := hat.block (program layout) (enableLongMode layout) ⟨_, rfl⟩ heffects
  have hinstr : (program layout).code[40]? = some (.movToCr0 .eax) := rfl
  have hpg : (d.reg .eax).toNat.testBit 31 = true := by
    rw [heax]
    exact testBit_or (by decide)
  have hpe : (d.reg .eax).toNat.testBit 0 = true := by
    rw [heax]
    exact testBit_or (by decide)
  have hlevels : d.FourLevels := by
    refine ⟨?_, ?_, ?_⟩
    · have hlow : ((s.msr efer).toUInt32 ||| 0x100).toNat.testBit 8 = true :=
        testBit_or (by decide)
      rw [hefer, UInt64.toNat_or, Nat.testBit_or, UInt32.toNat_toUInt64, hlow, Bool.or_true]
    · rw [hcr4]
      exact testBit_or (by decide)
    · rw [hcr4, UInt32.toNat_or, Nat.testBit_or, hfilling.control, hla57]
      decide
  have hstep : step gibPages (program layout) _ = some _ :=
    (hat'.step hinstr).trans ((if_pos hpg).trans (if_pos ⟨hpe, hlevels⟩))
  refine ⟨_, hreaches.tail hstep, hesp.trans hfilling.esp, rfl, hat.far, rfl, hcr3, ?_,
    hesi.trans hfilling.esi, ?_⟩
  · show d.reg .edi = _
    have hplaces := layout.places
    rw [hedi, ← UInt32.toNat_inj, hfilling.edi]
    omega
  · show Laid layout _ _ d.mem
    rw [hmem]
    exact hfilling.laid

theorem mapping_of_paged {pc : ℕ} (hpaged : Paged layout c pc s) {addr : UInt32}
    (haddr : addr.toNat < 2 ^ 30) :
    s.mapping ⟨gibPages, s.paging⟩ addr = some ⟨addr.toNat, true, false⟩ := by
  rw [hpaged.paging, Core.mapping, if_pos rfl, hpaged.cr3, translate_tables hpaged.laid.tables]
  exact if_pos (.inl haddr)

/-- The next instruction is in the lowest GiB. -/
theorem Paged.step {pc : ℕ} (hpaged : Paged layout c pc s) {instr : Instr}
    (hinstr : (program layout).code[pc]? = some instr) :
    Ia32.step gibPages (program layout) s = exec gibPages instr s := by
  have hfetch := mapping_of_paged gibPages hpaged (layout.text_lt s.pc)
  exact step_of_fetched hfetch rfl hpaged.far (hpaged.pc_eq ▸ hinstr)

/-- A push of the far return. -/
theorem Paged.push {pc : ℕ} (hpaged : Paged layout c pc s) {op : Op} {value esp : UInt32}
    (hinstr : (program layout).code[pc]? = some (.op op))
    (hop : effect ⟨gibPages, s.paging⟩ op s.toCore = s.push ⟨gibPages, s.paging⟩ value)
    (hesp : s.reg .esp - 4 = esp) (hroom : (layout.stackTop - 8).toNat ≤ esp.toNat)
    (hroom' : esp.toNat + 4 ≤ layout.stackTop.toNat) :
    ∃ t, Ia32.step gibPages (program layout) s = some t ∧ Paged layout c (pc + 1) t ∧
      t.gdt = s.gdt ∧ t.reg .esp = esp ∧ t.reg .eax = s.reg .eax ∧
      t.mem = s.mem.store32 esp.toNat value := by
  have hplaces := layout.places
  have hmapping : (s.set .esp esp).mapping ⟨gibPages, s.paging⟩ esp =
      some ⟨esp.toNat, true, false⟩ := mapping_of_paged gibPages hpaged (by omega)
  have hstep : Ia32.step gibPages (program layout) s = some { s with
      toCore := { s.set .esp esp with mem := s.mem.store32 esp.toNat value }
      pc := s.pc + 1 } := by
    rw [hpaged.step gibPages hinstr, exec, hop, Core.push, hesp, Core.store, hmapping]
    rfl
  exact ⟨_, hstep, ⟨congrArg (· + 1) hpaged.pc_eq, hpaged.far, hpaged.paging, hpaged.cr3,
    hpaged.edi, hpaged.esi, hpaged.laid.store_stack hroom hroom' value⟩, rfl, rfl, rfl, rfl⟩

/-- The far return goes where the last two words of the stack say. -/
theorem Paged.retf (hpaged : Paged layout c 45 s) (hesp : s.reg .esp = layout.stackTop - 8)
    {offset : UInt32} {descriptor : UInt64}
    (hoffset : s.mem.load32 (layout.stackTop - 8).toNat = offset)
    (hselector : s.mem.load32 (layout.stackTop - 4).toNat = 0x08) (hgdt : s.gdt = layout.gdt)
    (hdescriptor : s.mem.load64 (layout.gdt.toNat + 8) = descriptor) :
    Ia32.step gibPages (program layout) s = some { s with
      toCore := s.set .esp (s.reg .esp + 8)
      far := some ⟨0x08, descriptor, offset⟩ } := by
  have hplaces := layout.places
  have hnext : s.reg .esp + 4 = layout.stackTop - 4 := by
    rw [hesp]
    grind
  have hentry : (layout.gdt + (0x08 &&& 0xfff8)).toNat = layout.gdt.toNat + 8 := by
    rw [UInt32.toNat_add]
    exact Nat.mod_eq_of_lt (by show _ + 8 < 2 ^ 32; omega)
  have hload : s.load ⟨gibPages, s.paging⟩ (s.reg .esp) = some offset := by
    rw [Core.load, hesp, mapping_of_paged gibPages hpaged (by omega), ← hoffset]
    rfl
  have hload' : s.load ⟨gibPages, s.paging⟩ (s.reg .esp + 4) = some 0x08 := by
    rw [Core.load, hnext, mapping_of_paged gibPages hpaged (by omega), ← hselector]
    rfl
  have hlookup : s.loadDescriptor ⟨gibPages, s.paging⟩ (s.gdt + (0x08 &&& 0xfff8)) =
      some descriptor := by
    rw [Core.loadDescriptor, hgdt, mapping_of_paged gibPages hpaged (by omega), hentry,
      ← hdescriptor]
    rfl
  have hinstr : (program layout).code[45]? = some .retf := rfl
  rw [hpaged.step gibPages hinstr, exec, Option.bind_eq_bind, hload, Option.bind_some, hload',
    Option.bind_some, hlookup]
  rfl

/-- The last five instructions: the descriptor table is loaded, and a far return goes to the
64-bit code. -/
theorem exists_far (hpaged : Paged layout c 41 s) (hesp : s.reg .esp = layout.stackTop)
    (hcode64 : c.mem.load64 (layout.gdt.toNat + 8) = code64)
    (hpointer : c.mem.load32 (layout.gdtPointer.toNat + 2) = layout.gdt) :
    ∃ t, Reaches gibPages (program layout) s t ∧ t.far = some ⟨0x08, code64, layout.start64⟩ ∧
      t.paging = true ∧ t.control .cr3 = layout.pml4 ∧ t.reg .edi = layout.stackBottom ∧
      t.reg .esi = c.reg .eax ∧ Laid layout (tableWord layout 512) c.mem t.mem := by
  have hplaces := layout.places
  have hdata : ∀ {mem : Memory}, Laid layout (tableWord layout 512) c.mem mem →
      ∀ a < layout.gdt.toNat + 34, mem a = c.mem a := by
    intro mem hlaid a ha
    refine hlaid.outside a ?_
    rw [Set.mem_Ico]
    omega
  have hgdt : s.mem.load32 (layout.gdtPointer.toNat + 2) = layout.gdt := by
    rw [← hpointer]
    refine Memory.load32_congr fun a ha => hdata hpaged.laid a ?_
    rw [Set.mem_Ico] at ha
    omega
  have hinstr₁ : (program layout).code[41]? = some (.op (.lgdt layout.gdtPointer)) := rfl
  have hinstr₂ : (program layout).code[42]? = some (.op (.movImm .eax layout.start64)) := rfl
  have hstep₁ : Ia32.step gibPages (program layout) s =
      some { s with gdt := layout.gdt, pc := s.pc + 1 } := by
    rw [hpaged.step gibPages hinstr₁, exec, effect, mapping_of_paged gibPages hpaged (by omega),
      ← hgdt]
    rfl
  have hpaged₁ : Paged layout c 42 { s with gdt := layout.gdt, pc := s.pc + 1 } :=
    ⟨congrArg (· + 1) hpaged.pc_eq, hpaged.far, hpaged.paging, hpaged.cr3, hpaged.edi, hpaged.esi,
      hpaged.laid⟩
  obtain ⟨u, hstep₂, hpaged₂, hesp₂, heax₂, hgdt₂⟩ :
      ∃ u, Ia32.step gibPages (program layout) { s with gdt := layout.gdt, pc := s.pc + 1 } =
        some u ∧ Paged layout c 43 u ∧ u.reg .esp = layout.stackTop ∧
        u.reg .eax = layout.start64 ∧ u.gdt = layout.gdt :=
    ⟨_, hpaged₁.step gibPages hinstr₂, ⟨congrArg (· + 1) hpaged₁.pc_eq, hpaged.far, hpaged.paging,
      hpaged.cr3, hpaged.edi, hpaged.esi, hpaged.laid⟩, hesp, rfl, rfl⟩
  have hinstr₃ : (program layout).code[43]? = some (.op (.pushImm 0x08)) := rfl
  obtain ⟨v, hstep₃, hpaged₃, hgdt₃, hesp₃, heax₃, hmem₃⟩ :=
    hpaged₂.push gibPages hinstr₃ rfl (congrArg (· - 4) hesp₂) (by omega) (by omega)
  have hinstr₄ : (program layout).code[44]? = some (.op (.push .eax)) := rfl
  have hesp₃' : v.reg .esp - 4 = layout.stackTop - 8 := by
    rw [hesp₃]
    grind
  obtain ⟨w, hstep₄, hpaged₄, hgdt₄, hesp₄, -, hmem₄⟩ :=
    hpaged₃.push gibPages hinstr₄ rfl hesp₃' (by omega) (by omega)
  have hoffset : w.mem.load32 (layout.stackTop - 8).toNat = layout.start64 := by
    rw [hmem₄, Memory.load32_store32_self, heax₃, heax₂]
  have hselector : w.mem.load32 (layout.stackTop - 4).toNat = 0x08 := by
    rw [hmem₄, Memory.load32_store32_of_disjoint (by omega), hmem₃, Memory.load32_store32_self]
  have hdescriptor : w.mem.load64 (layout.gdt.toNat + 8) = code64 := by
    rw [← hcode64]
    refine Memory.load64_congr fun a ha => hdata hpaged₄.laid a ?_
    rw [Set.mem_Ico] at ha
    omega
  have hstep₅ := hpaged₄.retf gibPages hesp₄ hoffset hselector
    (hgdt₄.trans (hgdt₃.trans hgdt₂)) hdescriptor
  exact ⟨_, .head hstep₁ (.head hstep₂ (.head hstep₃ (.head hstep₄ (.single hstep₅)))), rfl,
    hpaged₄.paging, hpaged₄.cr3, hpaged₄.edi, hpaged₄.esi, hpaged₄.laid⟩

/-- Whatever the loader left in the registers and in memory, the boot code reaches the far
return. -/
theorem exists_entered (hloaded : Loaded layout s) :
    ∃ t, Reaches gibPages (program layout) s t ∧ t.far = some ⟨0x08, code64, layout.start64⟩ ∧
      t.paging = true ∧ t.control .cr3 = layout.pml4 ∧ t.reg .edi = layout.stackBottom ∧
      t.reg .esi = s.reg .eax ∧ Laid layout (tableWord layout 512) s.mem t.mem := by
  obtain ⟨u, hreaches₁, hat₁, hfilling⟩ := exists_filling layout gibPages hloaded.start
  obtain ⟨v, hreaches₂, hat₂, hfilled⟩ := filling_all gibPages (by norm_num) hat₁ hfilling
  obtain ⟨w, hreaches₃, hesp, hpaged⟩ := exists_paged gibPages hat₂ hfilled hloaded.la57
  obtain ⟨t, hreaches₄, hentered⟩ :=
    exists_far gibPages hpaged hesp hloaded.gdt_code64 hloaded.gdt_pointer
  exact ⟨t, ((hreaches₁.trans hreaches₂).trans hreaches₃).trans hreaches₄, hentered⟩

end Under

/-! ## Results -/

/-- The kernel at 1 MiB, with its `.bss` behind a descriptor table. -/
def smallLayout : Layout where
  bssStart := 0x110000
  bssEnd := 0x124000
  pml4 := 0x111000
  gdt := 0x10f000
  start64 := 0x100100
  trampoline := 0x101000
  text := fun _ => 0x100000
  bssStart_aligned := by decide
  bssEnd_aligned := by decide
  pml4_aligned := by decide
  gdt_aligned := by decide
  gdt_le := by decide
  bssStart_le := by decide
  stack_le := by decide
  bssEnd_lt := by decide
  text_lt := fun _ => by decide

/-- The descriptor table and its pointer, as they are in `.data`. -/
def gdtBytes (layout : Layout) : List UInt8 :=
  toLe 8 0 ++ toLe 8 code64.toNat ++ toLe 8 0x00CF92000000FFFF ++ toLe 2 23 ++
    toLe 8 layout.gdt.toNat

def smallLoaded : State where
  reg := fun r => if r = .eax then 0x36d76289 else 0x9000
  control := fun r => if r = .cr0 then 0x11 else 0
  msr := fun _ => 0
  direction := false
  interrupts := false
  paging := false
  gdt := 0
  pc := 0
  far := none
  mem := Memory.ofBytes 0x10f000 (gdtBytes smallLayout)

theorem loaded_small : Loaded smallLayout smallLoaded where
  start := ⟨rfl, rfl, rfl⟩
  la57 := by decide
  gdt_code64 := by decide
  gdt_pointer := by
    unfold Layout.gdtPointer
    decide

/-- The 64-bit name of a register. -/
def wide : Reg → Amd64.Reg
  | .eax => .rax
  | .ebx => .rbx
  | .ecx => .rcx
  | .edx => .rdx
  | .esi => .rsi
  | .edi => .rdi
  | .ebp => .rbp
  | .esp => .rsp

/-- The 64-bit code goes on with the registers and the memory of the 32-bit code. -/
structure Continues (s : State) (t : Amd64.State) : Prop where
  reg : ∀ r, t.reg (wide r) = (s.reg r).toUInt64
  mem : t.mem = s.mem

/-- `_start64`, without the data segments that 64-bit code does not use. -/
def start64Code (layout : Layout) (link : UInt64) : List Amd64.Instr :=
  [ .movImm16 .rax 0x10, .movSs .rax, .movImm .rsp layout.stackTop.toUInt64,
    .callImm layout.trampoline link ]

/-- **The information block is lost.**  Whatever address the loader passes in `ebx` and whatever it
stored there, the trampoline is called with the address of the bottom of the boot stack, which is
zero: the parser finds no information and returns the description of the fallback machine. -/
theorem multiboot_info_lost (gibPages : Bool) (layout : Layout) (s : State)
    (hloaded : Loaded layout s) :
    ∃ t, Reaches gibPages (program layout) s t ∧
      t.far = some ⟨0x08, code64, layout.start64⟩ ∧
      ∀ (link : UInt64) (u : Amd64.State), Continues t u →
        let called := Amd64.run (start64Code layout link) u
        called.rip = layout.trampoline ∧
        called.reg .rdi = layout.stackBottom.toUInt64 ∧
        called.reg .rsi = (s.reg .eax).toUInt64 ∧
        (Multiboot.parseOrFallback called.mem (called.reg .rdi) (called.reg .rsi)).result =
          .ok (Multiboot.initialInfo layout.stackBottom.toUInt64) := by
  obtain ⟨t, hreaches, hfar, -, -, hedi, hesi, hlaid⟩ := exists_entered gibPages hloaded
  refine ⟨t, hreaches, hfar, ?_⟩
  intro link u hcontinues called
  have hrdi : called.reg .rdi = layout.stackBottom.toUInt64 := by
    rw [← hedi]
    exact hcontinues.reg .edi
  have hrsi : called.reg .rsi = (s.reg .eax).toUInt64 := by
    rw [← hesi]
    exact hcontinues.reg .esi
  refine ⟨rfl, hrdi, hrsi, ?_⟩
  have hmem : called.mem = t.mem.store64 (layout.stackTop.toUInt64 - 8).toNat link := by
    rw [← hcontinues.mem]
    rfl
  have htotal : Multiboot.u32At called.mem layout.stackBottom.toNat = 0 := by
    have hplaces := layout.places
    have hpushed : (layout.stackTop.toUInt64 - 8).toNat = layout.pml4.toNat + 0x12ff8 := by
      simp only [UInt64.toNat_sub, UInt32.toNat_toUInt64, UInt64.reduceToNat]
      omega
    unfold Multiboot.u32At
    refine Memory.load32_eq_zero fun a ha => ?_
    rw [Set.mem_Ico] at ha
    rw [hmem, hpushed, Memory.store64_apply_of_notMem]
    · refine hlaid.stack a ?_
      rw [Set.mem_Ico]
      omega
    · rw [Set.mem_Ico]
      omega
  rw [hrdi, Multiboot.parseOrFallback]
  split_ifs with hfallback
  · rfl
  · rw [Multiboot.readU32, UInt32.toNat_toUInt64, htotal]
    rfl

/-- A loader that passes the address 0x9000. -/
theorem multiboot_info_lost_small :
    smallLoaded.reg .ebx = 0x9000 ∧ smallLoaded.reg .eax = 0x36d76289 ∧
      ∃ t, Reaches true (program smallLayout) smallLoaded t ∧
        ∀ (link : UInt64) (u : Amd64.State), Continues t u →
          (Amd64.run (start64Code smallLayout link) u).reg .rdi =
            smallLayout.stackBottom.toUInt64 := by
  obtain ⟨t, hreaches, -, hlost⟩ := multiboot_info_lost true smallLayout smallLoaded loaded_small
  exact ⟨rfl, rfl, t, hreaches, fun link u hcontinues => (hlost link u hcontinues).2.1⟩

end Hyperion.X86.Boot
