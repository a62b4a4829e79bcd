import Hyperion.Mm.VmmInvariant

/-!
# The frames that `init` manages

`init` starts the pool behind the kernel image if `__kernel_end` lies in the bank, and
at the start of the bank otherwise.  The test is half open: an image that ends exactly
where the bank ends does not count as lying in it, and then the pool starts in front of
the image and may run into it.  The other way to go wrong is the rounding of the start
to a page boundary, which wraps to address 0 in the last page of the address space.

`PoolSafe` says in terms of the bank and the image when neither happens.  It is stated
with natural numbers; that the words of the source compute the same is
`toNat_poolBase_of_lt` and `poolFrames_eq`.
-/

namespace Hyperion.Mm.Pmm

open Hyperion.Lib Hyperion.Hal
open Hyperion.Mm.Vmm (roundUp)

/-- The addresses of a bank. -/
def bankRange (bank : MemoryRegion) : Set ℕ :=
  Set.Ico bank.base.toNat (bank.base.toNat + bank.size.toNat)

/-- The addresses of the kernel image. -/
def imageRange (kernelStart kernelEnd : UInt64) : Set ℕ :=
  Set.Ico kernelStart.toNat kernelEnd.toNat

/-- The addresses of a managed frame. -/
def frameRange (s : State) (i : ℕ) : Set ℕ :=
  Set.Ico (s.base.toNat + i * pageSize) (s.base.toNat + (i + 1) * pageSize)

/-- A frame that may be handed out. -/
structure FrameSafe (bank : MemoryRegion) (kernelStart kernelEnd : UInt64) (s : State) (i : ℕ) :
    Prop where
  aligned : (s.base.toNat + i * pageSize) % pageSize = 0
  inside : frameRange s i ⊆ bankRange bank
  apart : Disjoint (frameRange s i) (imageRange kernelStart kernelEnd)

/-! ## When the pool is safe -/

/-- What `init` takes for the end of a bank: the sum saturates. -/
def bankStop (bank : MemoryRegion) : ℕ :=
  min (bank.base.toNat + bank.size.toNat) (2 ^ 64 - 1)

/-- `kernel_end` passes the test of `init`. -/
def EndsInside (bank : MemoryRegion) (kernelEnd : UInt64) : Prop :=
  bank.base.toNat ≤ kernelEnd.toNat ∧ kernelEnd.toNat < bankStop bank

instance (bank : MemoryRegion) (kernelEnd : UInt64) : Decidable (EndsInside bank kernelEnd) :=
  inferInstanceAs (Decidable (_ ∧ _))

/-- How many frames a pool has that starts at the first page of the bank. -/
def wholePages (bank : MemoryRegion) : ℕ :=
  min ((bankStop bank - roundUp bank.base.toNat) / pageSize) maxFrames

/-- The pool keeps to the bank and away from the image.  Behind an image that ends
inside the bank it does, unless the page after the image is past the end of the address
space; the pool is then the first 256 MiB of memory, which is only right if the bank
starts there and the image does not.  A pool that starts with the bank has to end before
the image starts, if the image is in the bank at all. -/
def PoolSafe (bank : MemoryRegion) (kernelStart kernelEnd : UInt64) : Prop :=
  if EndsInside bank kernelEnd then
    kernelEnd.toNat + 4095 < 2 ^ 64 ∨
      bank.base = 0 ∧ (kernelEnd ≤ kernelStart ∨ maxManagedBytes ≤ kernelStart.toNat)
  else
    bank.base.toNat + 4095 < 2 ^ 64 ∧
      (Disjoint (imageRange kernelStart kernelEnd) (bankRange bank) ∨ wholePages bank = 0 ∨
        roundUp bank.base.toNat + wholePages bank * pageSize ≤ kernelStart.toNat)

/-! ## The words of the source -/

theorem toNat_bankEnd (bank : MemoryRegion) : (bankEnd bank).toNat = bankStop bank :=
  toNat_saturatingAdd ..

/-- Where the pool would start without the rounding. -/
def rawBase (bank : MemoryRegion) (kernelEnd : UInt64) : UInt64 :=
  if EndsInside bank kernelEnd then kernelEnd else bank.base

theorem poolBase_eq (bank : MemoryRegion) (kernelEnd : UInt64) :
    poolBase bank kernelEnd = (rawBase bank kernelEnd + 4096 - 1) &&& ~~~(4096 - 1) := by
  have htest : (bank.base ≤ kernelEnd ∧ kernelEnd < bankEnd bank) ↔ EndsInside bank kernelEnd := by
    rw [UInt64.le_iff_toNat_le, UInt64.lt_iff_toNat_lt, toNat_bankEnd]
    rfl
  unfold poolBase rawBase
  simp only [htest]

theorem toNat_poolBase (bank : MemoryRegion) (kernelEnd : UInt64) :
    (poolBase bank kernelEnd).toNat =
      ((rawBase bank kernelEnd).toNat + 4095) % 2 ^ 64 / 4096 * 4096 := by
  have hmask : ((4096 : UInt64) - 1).toNat = 2 ^ 12 - 1 := rfl
  have hsum : (rawBase bank kernelEnd + 4096 - 1).toNat =
      ((rawBase bank kernelEnd).toNat + 4095) % 2 ^ 64 := by
    rw [UInt64.sub_eq_add_neg, UInt64.add_assoc, UInt64.toNat_add]
    rfl
  rw [poolBase_eq, toNat_and_not_mask hmask, hsum]
  rfl

theorem toNat_poolBase_of_lt {bank : MemoryRegion} {kernelEnd : UInt64}
    (hlt : (rawBase bank kernelEnd).toNat + 4095 < 2 ^ 64) :
    (poolBase bank kernelEnd).toNat = roundUp (rawBase bank kernelEnd).toNat := by
  rw [toNat_poolBase, Nat.mod_eq_of_lt hlt]
  rfl

/-- In the last page of the address space the rounding wraps. -/
theorem toNat_poolBase_of_ge {bank : MemoryRegion} {kernelEnd : UInt64}
    (hge : 2 ^ 64 ≤ (rawBase bank kernelEnd).toNat + 4095) :
    (poolBase bank kernelEnd).toNat = 0 := by
  have hraw := (rawBase bank kernelEnd).toNat_lt
  rw [toNat_poolBase]
  omega

theorem poolFrames_eq (bank : MemoryRegion) (kernelEnd : UInt64) :
    poolFrames bank kernelEnd =
      min ((bankStop bank - (poolBase bank kernelEnd).toNat) / pageSize) maxFrames := by
  have hmax : maxManagedBytes = maxFrames * pageSize := by decide
  have hpage : 0 < pageSize := by decide
  unfold poolFrames
  simp only
  rw [toNat_saturatingSub, toNat_bankEnd]
  generalize bankStop bank - (poolBase bank kernelEnd).toNat = bytes
  rcases Nat.le_total bytes maxManagedBytes with hle | hge
  · rw [min_eq_left hle]
  · rw [min_eq_right hge, hmax, Nat.mul_div_cancel _ hpage, min_self, min_eq_right]
    rw [Nat.le_div_iff_mul_le hpage, ← hmax]
    exact hge

/-! ## Frames and the pool they make up -/

/-- `n` frames from `base` on are aligned, in the bank and not in the image. -/
def RangeSafe (bank : MemoryRegion) (kernelStart kernelEnd : UInt64) (base n : ℕ) : Prop :=
  n = 0 ∨ (base % pageSize = 0 ∧ Set.Ico base (base + n * pageSize) ⊆ bankRange bank ∧
    Disjoint (Set.Ico base (base + n * pageSize)) (imageRange kernelStart kernelEnd))

/-- The frames are safe when the range they make up is. -/
theorem forall_frameSafe_iff (bank : MemoryRegion) (kernelStart kernelEnd base : UInt64) {n : ℕ}
    (hle : n ≤ maxFrames) :
    (∀ i < n, FrameSafe bank kernelStart kernelEnd (State.fresh base n hle) i) ↔
      RangeSafe bank kernelStart kernelEnd base.toNat n := by
  have hbase : (State.fresh base n hle).base = base := rfl
  have hpage : 0 < pageSize := by decide
  -- an address of the pool is an address of one of its frames
  have hcover : ∀ addr ∈ Set.Ico base.toNat (base.toNat + n * pageSize),
      (addr - base.toNat) / pageSize < n ∧
        addr ∈ frameRange (State.fresh base n hle) ((addr - base.toNat) / pageSize) := by
    intro addr haddr
    obtain ⟨hlow, hhigh⟩ := haddr
    have hdiv := Nat.div_add_mod (addr - base.toNat) pageSize
    have hmod := Nat.mod_lt (addr - base.toNat) hpage
    refine ⟨(Nat.div_lt_iff_lt_mul hpage).mpr (by omega), ?_⟩
    rw [frameRange, hbase, Set.mem_Ico, Nat.add_one_mul, Nat.mul_comm]
    omega
  constructor
  · intro hall
    rcases Nat.eq_zero_or_pos n with hzero | hpos
    · exact .inl hzero
    · refine .inr ⟨by simpa [hbase] using (hall 0 hpos).aligned, ?_, ?_⟩
      · intro addr haddr
        obtain ⟨hlt, hmem⟩ := hcover addr haddr
        exact (hall _ hlt).inside hmem
      · rw [Set.disjoint_left]
        intro addr haddr
        obtain ⟨hlt, hmem⟩ := hcover addr haddr
        exact Set.disjoint_left.mp (hall _ hlt).apart hmem
  · rintro (hzero | ⟨haligned, hinside, hapart⟩) i hi
    · omega
    · have hpart : frameRange (State.fresh base n hle) i ⊆
          Set.Ico base.toNat (base.toNat + n * pageSize) := by
        have hmul : (i + 1) * pageSize ≤ n * pageSize := Nat.mul_le_mul_right _ hi
        exact Set.Ico_subset_Ico (Nat.le_add_right _ _) (by rw [hbase]; omega)
      refine ⟨?_, hpart.trans hinside, hapart.mono_left hpart⟩
      rw [hbase, Nat.add_mul_mod_self_right, haligned]

/-! ## The pool against the bank and the image -/

section Image

variable {bank : MemoryRegion} {kernelStart kernelEnd : UInt64}

/-- The ranges compared by their ends. -/
theorem rangeSafe_of_pos {base n : ℕ} (hpos : 0 < n) :
    RangeSafe bank kernelStart kernelEnd base n ↔
      base % 4096 = 0 ∧ bank.base.toNat ≤ base ∧
        base + n * 4096 ≤ bank.base.toNat + bank.size.toNat ∧
        (kernelEnd.toNat ≤ kernelStart.toNat ∨ kernelEnd.toNat ≤ base ∨
          base + n * 4096 ≤ kernelStart.toNat) := by
  unfold RangeSafe bankRange imageRange pageSize
  rw [Set.Ico_subset_Ico_iff (by omega), Set.Ico_disjoint_Ico]
  constructor
  · intro hsafe
    omega
  · intro hsafe
    omega

theorem roundUp_bounds (n : ℕ) : n ≤ roundUp n ∧ roundUp n < n + 4096 ∧ roundUp n % 4096 = 0 := by
  unfold roundUp
  omega

/-- A pool that starts behind the image, and where that wraps. -/
theorem rangeSafe_of_endsInside (hends : EndsInside bank kernelEnd) :
    RangeSafe bank kernelStart kernelEnd (poolBase bank kernelEnd).toNat
        (poolFrames bank kernelEnd) ↔
      kernelEnd.toNat + 4095 < 2 ^ 64 ∨
        bank.base = 0 ∧ (kernelEnd ≤ kernelStart ∨ maxManagedBytes ≤ kernelStart.toNat) := by
  have hraw : rawBase bank kernelEnd = kernelEnd := if_pos hends
  have hcount := poolFrames_eq bank kernelEnd
  obtain ⟨_, hstop⟩ := hends
  have hfits : bankStop bank ≤ bank.base.toNat + bank.size.toNat := min_le_left _ _
  have hmax : maxFrames = 65536 := by decide
  have hbytes : maxManagedBytes = 268435456 := by decide
  have hzero : bank.base = 0 ↔ bank.base.toNat = 0 := by rw [← UInt64.toNat_inj]; rfl
  rw [UInt64.le_iff_toNat_le, hzero, hbytes]
  unfold pageSize at hcount
  rcases Nat.lt_or_ge (kernelEnd.toNat + 4095) (2 ^ 64) with hlt | hge
  · refine iff_of_true ?_ (.inl hlt)
    have hbase := toNat_poolBase_of_lt (hraw.symm ▸ hlt)
    rw [hraw] at hbase
    obtain ⟨hle, _, halign⟩ := roundUp_bounds kernelEnd.toNat
    rcases Nat.eq_zero_or_pos (poolFrames bank kernelEnd) with hnone | hpos
    · exact .inl hnone
    · rw [rangeSafe_of_pos hpos]
      omega
  · have hbase := toNat_poolBase_of_ge (hraw.symm ▸ hge)
    have hframes : poolFrames bank kernelEnd = 65536 := by omega
    rw [rangeSafe_of_pos (by omega), hbase, hframes]
    omega

/-- A pool that starts with the bank. -/
theorem rangeSafe_of_not_endsInside (hends : ¬EndsInside bank kernelEnd) :
    RangeSafe bank kernelStart kernelEnd (poolBase bank kernelEnd).toNat
        (poolFrames bank kernelEnd) ↔
      bank.base.toNat + 4095 < 2 ^ 64 ∧
        (Disjoint (imageRange kernelStart kernelEnd) (bankRange bank) ∨ wholePages bank = 0 ∨
          roundUp bank.base.toNat + wholePages bank * pageSize ≤ kernelStart.toNat) := by
  have hraw : rawBase bank kernelEnd = bank.base := if_neg hends
  have hcount := poolFrames_eq bank kernelEnd
  have hfits : bankStop bank ≤ bank.base.toNat + bank.size.toNat := min_le_left _ _
  have hmax : maxFrames = 65536 := by decide
  have hsmall := bank.base.toNat_lt
  rcases Nat.lt_or_ge (bank.base.toNat + 4095) (2 ^ 64) with hlt | hge
  · have hbase := toNat_poolBase_of_lt (hraw.symm ▸ hlt)
    rw [hraw] at hbase
    have hpages : poolFrames bank kernelEnd = wholePages bank := by
      rw [hcount, hbase]
      rfl
    obtain ⟨hle, _, halign⟩ := roundUp_bounds bank.base.toNat
    rw [hpages, hbase]
    rcases Nat.eq_zero_or_pos (wholePages bank) with hnone | hpos
    · exact iff_of_true (.inl hnone) ⟨hlt, .inr (.inl hnone)⟩
    · rw [rangeSafe_of_pos hpos, imageRange, bankRange, Set.Ico_disjoint_Ico]
      unfold EndsInside at hends
      unfold wholePages pageSize at hpos ⊢
      omega
  · -- the rounding wraps, and frame 0 is outside the bank
    have hbase := toNat_poolBase_of_ge (hraw.symm ▸ hge)
    have hstop : bank.base.toNat ≤ bankStop bank := by
      unfold bankStop
      omega
    unfold pageSize at hcount
    have hframes : poolFrames bank kernelEnd = 65536 := by omega
    rw [rangeSafe_of_pos (by omega), hbase]
    omega

end Image

/-- **Which banks and images make a safe pool.**  After `init`, every managed frame is
page-aligned, lies in the largest bank and does not meet the kernel image, exactly when
the bank and the image are `PoolSafe`. -/
theorem managed_frames_safe_iff (memory : MemoryMap) (bank : MemoryRegion)
    (hbank : memory.largest = some bank) (kernelStart kernelEnd : UInt64) :
    (∀ i < (init memory kernelEnd State.new).numFrames,
      FrameSafe bank kernelStart kernelEnd (init memory kernelEnd State.new) i) ↔
      PoolSafe bank kernelStart kernelEnd := by
  have hinit : init memory kernelEnd State.new = State.fresh (poolBase bank kernelEnd)
      (poolFrames bank kernelEnd) (min_le_right _ _) := by
    unfold init
    rw [hbank]
  rw [hinit]
  refine (forall_frameSafe_iff bank kernelStart kernelEnd _ (min_le_right _ _)).trans ?_
  unfold PoolSafe
  split
  · rename_i hends
    exact rangeSafe_of_endsInside hends
  · rename_i hends
    exact rangeSafe_of_not_endsInside hends

/-- A kernel of three pages at the start of a bank of eight. -/
theorem managed_frames_safe_iff_kernelFirst :
    let memory : MemoryMap := ⟨[⟨0x40000000, 0x8000⟩], by decide, by decide⟩
    (init memory 0x40003000 State.new).numFrames = 5 ∧
      ∀ i < (init memory 0x40003000 State.new).numFrames,
        FrameSafe ⟨0x40000000, 0x8000⟩ 0x40000000 0x40003000
          (init memory 0x40003000 State.new) i := by
  intro memory
  refine ⟨by decide +kernel, (managed_frames_safe_iff memory _ rfl _ _).mpr ?_⟩
  unfold PoolSafe
  rw [if_pos (by decide +kernel)]
  exact .inl (by decide)

/-- A kernel of three pages at the end of a bank of eight: all eight pages are managed. -/
theorem kernel_pages_managed :
    let memory : MemoryMap := ⟨[⟨0x40000000, 0x8000⟩], by decide, by decide⟩
    memory.largest = some ⟨0x40000000, 0x8000⟩ ∧
      imageRange 0x40005000 0x40008000 ⊆ bankRange ⟨0x40000000, 0x8000⟩ ∧
      (init memory 0x40008000 State.new).numFrames = 8 ∧
      ¬Disjoint (frameRange (init memory 0x40008000 State.new) 5)
        (imageRange 0x40005000 0x40008000) := by
  intro memory
  have hbase : (init memory 0x40008000 State.new).base = 0x40000000 := by decide +kernel
  refine ⟨rfl, Set.Ico_subset_Ico (by decide) (by decide), by decide +kernel, ?_⟩
  rw [Set.not_disjoint_iff]
  refine ⟨0x40005000, ?_, by decide, by decide⟩
  rw [frameRange, hbase]
  exact ⟨by decide, by decide⟩

end Hyperion.Mm.Pmm
