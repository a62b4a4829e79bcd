import Hyperion.Lib.TableWalk

/-!
# The identity map

`arch/aarch64/mmu.rs`.  `build_identity_map` fills two tables in memory: the first entry of the
level-1 table points to the level-2 table, which has 512 blocks of 2 MiB, and all other entries of
the level-1 table are invalid.  So the lowest GiB is mapped to itself as device memory, and every
other address faults (`translate_eq`).  The kernel is linked at 0x40080000, behind that GiB: when
the MMU is turned on, no address of the kernel is mapped (`translate_identity_iff`).
-/

namespace Hyperion.Mm.Mmu

open Hyperion.Lib TableWalk

def entries : ℕ := 512

def descValid : UInt64 := (1 : UInt64) <<< 0
def descTable : UInt64 := (1 : UInt64) <<< 1
def descAf : UInt64 := (1 : UInt64) <<< 10
def descShInner : UInt64 := (0b11 : UInt64) <<< 8
def descApRwEl1 : UInt64 := (0b00 : UInt64) <<< 6

def attrNormalIdx : UInt64 := 0
def attrDeviceIdx : UInt64 := 1

def mairAttrNormal : UInt64 := 0xff
def mairAttrDevice : UInt64 := 0x04

/-- The addresses of `L1_TABLE` and `L2_TABLE`, which are aligned to 4096 bytes. -/
structure Statics where
  l1 : UInt64
  l2 : UInt64
  l1_aligned : 4096 ∣ l1.toNat
  l2_aligned : 4096 ∣ l2.toNat
  apart : l1 ≠ l2
  -- physical addresses have 48 bits at most
  l2_lt : l2.toNat < 2 ^ 48

/-! ## The tables -/

/-- `L2_TABLE.0[i]`. -/
def blockEntry (i : ℕ) : UInt64 :=
  let pa : UInt64 := UInt64.ofNat i <<< 21
  let attrIdx := if pa < 0x40000000 then attrDeviceIdx else attrNormalIdx
  pa ||| (attrIdx <<< 2) ||| descAf ||| descShInner ||| descApRwEl1 ||| descValid

/-- The first loop clears both tables. -/
def clearTables (statics : Statics) (mem : Memory) : Memory :=
  (List.range entries).foldl
    (fun mem i => (mem.store64 (statics.l1.toNat + 8 * i) 0).store64 (statics.l2.toNat + 8 * i) 0)
    mem

/-- The second loop fills the level-2 table. -/
def fillBlocks (statics : Statics) (mem : Memory) : Memory :=
  (List.range entries).foldl
    (fun mem i => mem.store64 (statics.l2.toNat + 8 * i) (blockEntry i)) mem

def buildIdentityMap (statics : Statics) (mem : Memory) : Memory :=
  let mem := clearTables statics mem
  let mem := mem.store64 statics.l1.toNat (statics.l2 ||| descValid ||| descTable)
  fillBlocks statics mem

/-! ## Turning the MMU on -/

/-- The registers that `enable` writes, as far as they matter for low addresses. -/
structure Registers where
  mair : UInt64
  tcr : UInt64
  ttbr0 : UInt64
  deriving DecidableEq, Repr

def enable (statics : Statics) : Registers where
  mair := (mairAttrNormal <<< (8 * attrNormalIdx)) ||| (mairAttrDevice <<< (8 * attrDeviceIdx))
  tcr := (25 : UInt64) ||| ((25 : UInt64) <<< 16) ||| ((1 : UInt64) <<< 8) |||
    ((1 : UInt64) <<< 10) ||| ((3 : UInt64) <<< 12) ||| ((1 : UInt64) <<< 24) |||
    ((1 : UInt64) <<< 26) ||| ((3 : UInt64) <<< 28) ||| ((2 : UInt64) <<< 30) |||
    ((1 : UInt64) <<< 32)
  ttbr0 := statics.l1

/-- A physical address with the attributes of its memory. -/
structure Translation where
  address : ℕ
  attributes : ℕ
  deriving DecidableEq, Repr

/-- Normal memory, as opposed to device memory: not all of the upper four attribute bits are
zero. -/
def Translation.Normal (translation : Translation) : Prop := translation.attributes / 16 ≠ 0

/-- The translation of an address of the lower half.  The field `T0SZ` of `TCR_EL1` says how many
bits it has; for 39 bits the walk starts with two levels below the first table. -/
def Registers.translate (registers : Registers) (mem : Memory) (va : ℕ) : Option Translation :=
  if va < 2 ^ (64 - registers.tcr.toNat % 64) then
    (TableWalk.walk mem 2 registers.ttbr0.toNat va).map fun mapping =>
      ⟨mapping.address, field registers.mair (8 * mapping.attrIndex) 8⟩
  else none

/-- `KERNEL_LOAD_ADDR`. -/
def kernelLoadAddr : ℕ := 0x40080000

/-- An address of the kernel, which ends at `__kernel_end`. -/
def InKernel (kernelEnd va : ℕ) : Prop := kernelLoadAddr ≤ va ∧ va < kernelEnd

instance (kernelEnd va : ℕ) : Decidable (InKernel kernelEnd va) :=
  inferInstanceAs (Decidable (_ ∧ _))

/-! ## Descriptors -/

/-- A word with zeros below bit `n`, and a value in their place. -/
theorem toNat_or_of_dvd {word low : UInt64} {n : ℕ} (hdvd : 2 ^ n ∣ word.toNat)
    (hlow : low.toNat < 2 ^ n) : (word ||| low).toNat = word.toNat + low.toNat := by
  obtain ⟨k, hk⟩ := hdvd
  rw [UInt64.toNat_or, hk, ← Nat.two_pow_add_eq_or_of_lt hlow]

theorem toNat_tableEntry (statics : Statics) :
    (statics.l2 ||| descValid ||| descTable).toNat = statics.l2.toNat + 3 := by
  rw [UInt64.or_assoc, show descValid ||| descTable = 3 from rfl]
  exact toNat_or_of_dvd (n := 12) statics.l2_aligned (by decide)

/-- All blocks are below 0x40000000, so all of them are device memory. -/
theorem toNat_blockEntry {i : ℕ} (hi : i < 512) : (blockEntry i).toNat = i * 2 ^ 21 + 0x705 := by
  have hpa : (UInt64.ofNat i <<< 21 : UInt64).toNat = i * 2 ^ 21 := by
    have hi64 : (UInt64.ofNat i).toNat = i := UInt64.toNat_ofNat_of_lt' (by
      show i < 2 ^ 64
      omega)
    rw [UInt64.toNat_shiftLeft, hi64, Nat.shiftLeft_eq]
    exact Nat.mod_eq_of_lt (by show i * 2 ^ 21 < 2 ^ 64; omega)
  have hdevice : (UInt64.ofNat i <<< 21 : UInt64) < 0x40000000 := by
    rw [UInt64.lt_iff_toNat_lt, hpa]
    show i * 2 ^ 21 < 0x40000000
    omega
  have hlow : (attrDeviceIdx <<< 2) ||| (descAf ||| (descShInner ||| (descApRwEl1 ||| descValid))) =
      0x705 := rfl
  unfold blockEntry
  dsimp only
  rw [if_pos hdevice, UInt64.or_assoc, UInt64.or_assoc, UInt64.or_assoc, UInt64.or_assoc, hlow,
    toNat_or_of_dvd (n := 21) (hpa ▸ Dvd.intro_left i rfl) (by decide), hpa]
  rfl

theorem leaf_blockEntry {va : ℕ} (hlow : va < 2 ^ 30) :
    leaf (blockEntry (va / 2 ^ 21)) 21 va = some ⟨va, 1⟩ := by
  have hblock : (blockEntry (va / 2 ^ 21)).toNat = va / 2 ^ 21 * 2 ^ 21 + 0x705 :=
    toNat_blockEntry (by omega)
  have haddress : field (blockEntry (va / 2 ^ 21)) 21 27 * 2 ^ 21 + va % 2 ^ 21 = va := by
    rw [field, hblock]
    omega
  have hattr : field (blockEntry (va / 2 ^ 21)) 2 3 = 1 := by
    rw [field, hblock]
    omega
  rw [leaf, if_neg (by rw [field, hblock]; omega), haddress, hattr]

/-! ## The tables in memory -/

section Tables

variable (statics : Statics) (mem : Memory)

/-- The tables do not overlap. -/
theorem Statics.tables_disjoint : statics.l1.toNat + 4096 ≤ statics.l2.toNat ∨
    statics.l2.toNat + 4096 ≤ statics.l1.toNat := by
  obtain ⟨a, ha⟩ := statics.l1_aligned
  obtain ⟨b, hb⟩ := statics.l2_aligned
  have hne : a ≠ b := fun heq => statics.apart (UInt64.toNat_inj.mp (by rw [ha, hb, heq]))
  omega

theorem load64_clearTables {i : ℕ} (hi : i < 512) :
    (clearTables statics mem).load64 (statics.l1.toNat + 8 * i) = 0 := by
  have hdisjoint := statics.tables_disjoint
  have hfirst : ∀ n ≤ 512, ∀ i < n, ((List.range n).foldl (fun mem i =>
      (mem.store64 (statics.l1.toNat + 8 * i) 0).store64 (statics.l2.toNat + 8 * i) 0) mem).load64
        (statics.l1.toNat + 8 * i) = 0 := by
    intro n
    induction n with
    | zero => exact fun _ i hi => absurd hi (Nat.not_lt_zero i)
    | succ n ih =>
      intro hn i hi
      rw [List.range_succ, List.foldl_append, List.foldl_cons, List.foldl_nil,
        Memory.load64_store64_of_disjoint (by omega)]
      rcases Nat.lt_succ_iff_lt_or_eq.mp hi with hlt | rfl
      · rw [Memory.load64_store64_of_disjoint (by omega), ih (by omega) i hlt]
      · exact Memory.load64_store64_self
  exact hfirst 512 (le_refl _) i hi

/-- The first entry of the level-1 table points to the level-2 table, the others are invalid. -/
theorem load64_l1 {i : ℕ} (hi : i < 512) :
    (buildIdentityMap statics mem).load64 (statics.l1.toNat + 8 * i) =
      if i = 0 then statics.l2 ||| descValid ||| descTable else 0 := by
  have hbeside : statics.l1.toNat + 8 * i + 8 ≤ statics.l2.toNat ∨
      statics.l2.toNat + 8 * 512 ≤ statics.l1.toNat + 8 * i := by
    have hdisjoint := statics.tables_disjoint
    omega
  rw [buildIdentityMap, fillBlocks, entries, (Memory.load64_foldl_store64 _ _ _ _).2 _ hbeside]
  by_cases hzero : i = 0
  · rw [if_pos hzero, hzero, Nat.mul_zero, Nat.add_zero]
    exact Memory.load64_store64_self
  · rw [if_neg hzero, Memory.load64_store64_of_disjoint (by omega)]
    exact load64_clearTables statics mem hi

theorem load64_l2 {i : ℕ} (hi : i < 512) :
    (buildIdentityMap statics mem).load64 (statics.l2.toNat + 8 * i) = blockEntry i :=
  (Memory.load64_foldl_store64 _ _ _ _).1 i hi

/-! ## Translation -/

theorem walk_high {va : ℕ} (hva : va < 2 ^ 39) (hhigh : 2 ^ 30 ≤ va) :
    TableWalk.walk (buildIdentityMap statics mem) 2 statics.l1.toNat va = none := by
  have hindex : va / 2 ^ (12 + 9 * (1 + 1)) % 512 < 512 := Nat.mod_lt _ (by norm_num)
  have hne : va / 2 ^ (12 + 9 * (1 + 1)) % 512 ≠ 0 := by
    norm_num
    omega
  exact walk_of_invalid ((load64_l1 statics mem hindex).trans (if_neg hne)) rfl

/-- The block of a low address. -/
theorem walk_low {va : ℕ} (hlow : va < 2 ^ 30) :
    TableWalk.walk (buildIdentityMap statics mem) 2 statics.l1.toNat va = some ⟨va, 1⟩ := by
  have htable := toNat_tableEntry statics
  obtain ⟨page, hpage⟩ := statics.l2_aligned
  have hsmall := statics.l2_lt
  have hfirst : va / 2 ^ (12 + 9 * (1 + 1)) % 512 = 0 := by
    norm_num
    omega
  have hentry : (buildIdentityMap statics mem).load64
      (statics.l1.toNat + 8 * (va / 2 ^ (12 + 9 * (1 + 1)) % 512)) = _ :=
    (load64_l1 statics mem (by omega)).trans (if_pos hfirst)
  have hnext : field (statics.l2 ||| descValid ||| descTable) 12 36 * 2 ^ 12 =
      statics.l2.toNat := by
    rw [field, htable]
    omega
  rw [walk_of_table hentry (by rw [field, htable]; omega) (by rw [field, htable]; omega), hnext]
  have hsecond : va / 2 ^ (12 + 9 * (0 + 1)) % 512 = va / 2 ^ 21 := by
    norm_num
    omega
  have hlt : va / 2 ^ 21 < 512 := by omega
  have hblock := toNat_blockEntry hlt
  have hload : (buildIdentityMap statics mem).load64
      (statics.l2.toNat + 8 * (va / 2 ^ (12 + 9 * (0 + 1)) % 512)) = blockEntry (va / 2 ^ 21) := by
    rw [hsecond]
    exact load64_l2 statics mem hlt
  rw [walk_of_block hload (by rw [field, hblock]; omega) (by rw [field, hblock]; omega)]
  exact leaf_blockEntry hlow

/-- The lowest GiB is mapped to itself as device memory, and the rest faults. -/
theorem translate_eq {va : ℕ} (hva : va < 2 ^ 39) :
    (enable statics).translate (buildIdentityMap statics mem) va =
      if va < 2 ^ 30 then some ⟨va, 0x04⟩ else none := by
  have htcr : (enable statics).tcr = 0x1b5193519 := rfl
  have hbits : 64 - (enable statics).tcr.toNat % 64 = 39 := by
    rw [htcr]
    rfl
  rw [Registers.translate, hbits, if_pos hva]
  by_cases hlow : va < 2 ^ 30
  · have hwalk : TableWalk.walk _ 2 (enable statics).ttbr0.toNat va = _ := walk_low statics mem hlow
    have hmair : (enable statics).mair = 0x4ff := rfl
    have hdevice : field 0x4ff (8 * 1) 8 = 0x04 := by decide
    rw [hwalk, if_pos hlow, hmair]
    exact congrArg (fun attributes => some (Translation.mk va attributes)) hdevice
  · have hwalk : TableWalk.walk _ 2 (enable statics).ttbr0.toNat va = _ :=
      walk_high statics mem hva (Nat.le_of_not_lt hlow)
    rw [hwalk, if_neg hlow]
    rfl

end Tables

/-- **The identity map.**  No address is mapped to another one, and an address of the kernel is
never mapped to normal memory. -/
theorem translate_identity_iff (statics : Statics) (mem : Memory) (kernelEnd : ℕ) {va : ℕ}
    (hva : va < 2 ^ 39) :
    (∀ translation ∈ (enable statics).translate (buildIdentityMap statics mem) va,
        translation.address = va) ∧
      ((InKernel kernelEnd va → ∃ translation ∈
          (enable statics).translate (buildIdentityMap statics mem) va,
            translation.address = va ∧ translation.Normal) ↔
        ¬InKernel kernelEnd va) := by
  rw [translate_eq statics mem hva]
  refine ⟨?_, ?_, fun hout hin => absurd hin hout⟩
  · intro translation htranslation
    split at htranslation
    case isTrue =>
      obtain rfl := Option.some.inj htranslation
      rfl
    case isFalse => cases htranslation
  · intro hmapped hin
    obtain ⟨translation, htranslation, _⟩ := hmapped hin
    have hhigh : ¬va < 2 ^ 30 := by
      have hstart : 0x40080000 ≤ va := hin.1
      omega
    rw [if_neg hhigh] at htranslation
    cases htranslation

/-- The tables at two pages of the kernel. -/
def twoPages : Statics :=
  ⟨0x40200000, 0x40201000, by decide, by decide, by decide, by decide⟩

/-- The UART is mapped to itself. -/
theorem translate_identity_iff_uart :
    ¬InKernel 0x40600000 0x09000000 ∧
      ∃ translation ∈ (enable twoPages).translate (buildIdentityMap twoPages fun _ => 0) 0x09000000,
        translation.address = 0x09000000 := by
  have hidentity := (translate_identity_iff twoPages (fun _ => 0) 0x40600000
    (by norm_num : 0x09000000 < 2 ^ 39)).1
  have hmapped : (enable twoPages).translate (buildIdentityMap twoPages fun _ => 0) 0x09000000 =
      some ⟨0x09000000, 0x04⟩ := by
    rw [translate_eq twoPages _ (by norm_num)]
    exact if_pos (by norm_num)
  exact ⟨by decide, _, hmapped, hidentity _ hmapped⟩

/-- The first instruction of the kernel is not mapped. -/
theorem kernel_start_unmapped : InKernel 0x40600000 0x40080000 ∧
    (enable twoPages).translate (buildIdentityMap twoPages fun _ => 0) 0x40080000 = none := by
  refine ⟨by decide, ?_⟩
  rw [translate_eq twoPages _ (by norm_num)]
  exact if_neg (by norm_num)

end Hyperion.Mm.Mmu
