import Mathlib

/-!
# Machine words

Facts about fixed-width words that the arithmetic of the standard library does
not state in the form used here: words are linearly ordered, masking with
`2 ^ k - 1` is a remainder, masking with its complement rounds down to a multiple
of `2 ^ k`, and a checked addition succeeds exactly when the mathematical sum
fits.

A bitmap is an array of 64-bit words; index `i` is bit `i % 64` of word `i / 64`.
-/

namespace Hyperion.Lib

instance linearOrderUInt64 : LinearOrder UInt64 where
  le_refl := UInt64.le_refl
  le_trans _ _ _ := UInt64.le_trans
  lt_iff_le_not_ge a b := by
    rw [UInt64.lt_iff_toNat_lt, UInt64.le_iff_toNat_le, UInt64.le_iff_toNat_le]
    omega
  le_antisymm _ _ := UInt64.le_antisymm
  le_total := UInt64.le_total
  toDecidableLE := inferInstance
  toDecidableEq := inferInstance
  toDecidableLT := inferInstance

instance linearOrderUInt32 : LinearOrder UInt32 where
  le_refl := UInt32.le_refl
  le_trans _ _ _ := UInt32.le_trans
  lt_iff_le_not_ge a b := by
    rw [UInt32.lt_iff_toNat_lt, UInt32.le_iff_toNat_le, UInt32.le_iff_toNat_le]
    omega
  le_antisymm _ _ := UInt32.le_antisymm
  le_total := UInt32.le_total
  toDecidableLE := inferInstance
  toDecidableEq := inferInstance
  toDecidableLT := inferInstance

/-! ## Masks -/

/-- `x & !(2^k - 1)` rounds `x` down to a multiple of `2^k`. -/
theorem toNat_and_not_mask {x mask : UInt64} {k : ℕ} (hmask : mask.toNat = 2 ^ k - 1) :
    (x &&& ~~~mask).toNat = x.toNat / 2 ^ k * 2 ^ k := by
  apply Nat.eq_of_testBit_eq
  intro i
  have hbits : (x &&& ~~~mask).toNat = (x.toBitVec &&& ~~~mask.toBitVec).toNat := by simp
  have hbv : mask.toBitVec.toNat = 2 ^ k - 1 := hmask
  have hx : x.toBitVec.toNat = x.toNat := rfl
  rw [hbits, BitVec.testBit_toNat, BitVec.getLsbD_and, BitVec.getLsbD_not,
    ← BitVec.testBit_toNat, ← BitVec.testBit_toNat, hbv, hx, Nat.testBit_two_pow_sub_one,
    Nat.testBit_mul_two_pow, Nat.testBit_div_two_pow]
  by_cases hi : i < 64
  · by_cases hik : i < k
    · simp [hi, hik]
    · simp [hi, hik, Nat.not_lt.mp hik]
  · -- above the word both sides have only zero bits
    have hzero : x.toNat.testBit i = false :=
      Nat.testBit_lt_two_pow
        (lt_of_lt_of_le x.toNat_lt (Nat.pow_le_pow_right (by decide) (by omega)))
    by_cases hki : k ≤ i <;> simp [hi, hki, hzero]

/-- `x & (2^k - 1)` is the remainder of `x` by `2^k`. -/
theorem toNat_and_mask {x mask : UInt64} {k : ℕ} (hmask : mask.toNat = 2 ^ k - 1) :
    (x &&& mask).toNat = x.toNat % 2 ^ k := by
  rw [UInt64.toNat_and, hmask, Nat.and_two_pow_sub_one_eq_mod]

/-- `n & !(2^k - 1)` on an integer that did not wrap. -/
theorem ldiff_two_pow_sub_one (n k : ℕ) : Nat.ldiff n (2 ^ k - 1) = n / 2 ^ k * 2 ^ k := by
  apply Nat.eq_of_testBit_eq
  intro i
  rw [Nat.testBit_ldiff, Nat.testBit_two_pow_sub_one, Nat.testBit_mul_two_pow,
    Nat.testBit_div_two_pow]
  by_cases hi : i < k
  · simp [hi, Nat.not_le.mpr hi]
  · have hle : k ≤ i := Nat.not_lt.mp hi
    simp [hi, hle]

/-! ## Signed words -/

theorem toInt_toInt32 (s : UInt32) : s.toInt32.toInt = (s.toNat : ℤ).bmod (2 ^ 32) :=
  BitVec.toInt_eq_toNat_bmod s.toBitVec

/-- A sum that leaves the range of `i32` is negative. -/
theorem toInt_add_toInt32 (x : Int32) {s : UInt32} (hs : s.toNat ≤ 2 ^ 31) :
    (x + s.toInt32).toInt = x.toInt + s.toNat ∨
      (x + s.toInt32).toInt < 0 ∧ 2 ^ 31 ≤ x.toInt + s.toNat := by
  have hlow := x.le_toInt
  have hhigh := x.toInt_lt
  rw [Int32.toInt_add, toInt_toInt32, Int.add_bmod_bmod]
  by_cases hfits : x.toInt + s.toNat < 2 ^ 31
  · exact .inl (Int.bmod_eq_of_le (by omega) (by omega))
  · refine .inr ⟨?_, not_lt.mp hfits⟩
    rw [Int.bmod]
    split
    · omega
    · omega

theorem toNat_toUInt32 {d : Int32} (hd : 0 ≤ d) : (d.toUInt32.toNat : ℤ) = d.toInt := by
  rw [Int32.toNat_toUInt32_of_le hd, Int32.toNatClampNeg, Int.toNat_of_nonneg]
  rwa [Int32.le_iff_toInt_le] at hd

theorem toInt_max (a b : Int32) : (max a b).toInt = max a.toInt b.toInt := by
  rw [show max a b = if a ≤ b then b else a from rfl]
  split
  case isTrue hle => rw [max_eq_right (Int32.le_iff_toInt_le.mp hle)]
  case isFalse hgt => rw [max_eq_left (not_le.mp (mt Int32.le_iff_toInt_le.mpr hgt)).le]

theorem toInt_min (a b : Int32) : (min a b).toInt = min a.toInt b.toInt := by
  rw [show min a b = if a ≤ b then a else b from rfl]
  split
  case isTrue hle => rw [min_eq_left (Int32.le_iff_toInt_le.mp hle)]
  case isFalse hgt => rw [min_eq_right (not_le.mp (mt Int32.le_iff_toInt_le.mpr hgt)).le]

/-- `x.max(0) as u32`. -/
theorem toNat_max_zero (x : Int32) : ((max x 0).toUInt32.toNat : ℤ) = max x.toInt 0 := by
  have hzero : (0 : Int32).toInt = 0 := rfl
  have hnonneg : 0 ≤ max x 0 := by
    rw [Int32.le_iff_toInt_le, toInt_max, hzero]
    exact le_max_right _ _
  rw [toNat_toUInt32 hnonneg, toInt_max, hzero]

/-! ## Checked and saturating arithmetic -/

/-- `a.checked_add(b)`. -/
def checkedAdd (a b : UInt64) : Option UInt64 :=
  if a.toNat + b.toNat < 2 ^ 64 then some (a + b) else none

/-- `a.saturating_add(b)`. -/
def saturatingAdd (a b : UInt64) : UInt64 :=
  if a.toNat + b.toNat < 2 ^ 64 then a + b else 0xFFFFFFFFFFFFFFFF

/-- `a.saturating_sub(b)`. -/
def saturatingSub (a b : UInt64) : UInt64 :=
  if b ≤ a then a - b else 0

/-- `u32::saturating_sub`. -/
def saturatingSub32 (a b : UInt32) : UInt32 :=
  if b ≤ a then a - b else 0

theorem toNat_add_of_lt {a b : UInt64} (h : a.toNat + b.toNat < 2 ^ 64) :
    (a + b).toNat = a.toNat + b.toNat := by
  rw [UInt64.toNat_add, Nat.mod_eq_of_lt h]

theorem checkedAdd_eq_some {a b sum : UInt64} :
    checkedAdd a b = some sum ↔ sum.toNat = a.toNat + b.toNat := by
  unfold checkedAdd
  split
  · rename_i hfits
    rw [Option.some_inj, ← UInt64.toNat_inj, toNat_add_of_lt hfits, eq_comm]
  · rename_i hwraps
    have := sum.toNat_lt
    simp only [reduceCtorEq, false_iff]
    omega

theorem checkedAdd_eq_none {a b : UInt64} :
    checkedAdd a b = none ↔ 2 ^ 64 ≤ a.toNat + b.toNat := by
  unfold checkedAdd
  split <;> simp <;> omega

theorem toNat_saturatingAdd (a b : UInt64) :
    (saturatingAdd a b).toNat = min (a.toNat + b.toNat) (2 ^ 64 - 1) := by
  unfold saturatingAdd
  split
  · rename_i hfits
    rw [toNat_add_of_lt hfits]
    omega
  · rename_i hwraps
    show 2 ^ 64 - 1 = _
    omega

theorem toNat_saturatingSub (a b : UInt64) :
    (saturatingSub a b).toNat = a.toNat - b.toNat := by
  unfold saturatingSub
  split
  · rename_i hle
    exact UInt64.toNat_sub_of_le _ _ hle
  · rename_i hlt
    rw [UInt64.le_iff_toNat_le] at hlt
    simp
    omega

/-! ## Bits of a word -/

/-- Bit `b` of `w`. -/
def wordBit (w : UInt64) (b : ℕ) : Bool :=
  w.toBitVec.getLsbD b

/-- `1 << b`. -/
def bitMask (b : ℕ) : UInt64 :=
  1 <<< UInt64.ofNat b

theorem toBitVec_bitMask {b : ℕ} (hb : b < 64) : (bitMask b).toBitVec = BitVec.twoPow 64 b := by
  have hshift : (UInt64.ofNat b).toNat % 64 = b := by
    rw [UInt64.toNat_ofNat']
    omega
  apply BitVec.eq_of_toNat_eq
  rw [bitMask, UInt64.toNat_toBitVec, UInt64.toNat_shiftLeft, hshift, BitVec.toNat_twoPow]
  simp [Nat.one_shiftLeft]

/-- The code's test `w & (1 << b) == 0`. -/
theorem and_bitMask_eq_zero {w : UInt64} {b : ℕ} (hb : b < 64) :
    w &&& bitMask b = 0 ↔ wordBit w b = false := by
  rw [← UInt64.toBitVec_inj, UInt64.toBitVec_and, toBitVec_bitMask hb, BitVec.and_twoPow, wordBit]
  constructor
  · intro hzero
    by_contra hset
    rw [if_pos (by simpa using hset)] at hzero
    have hbit := congrArg (fun v => BitVec.getLsbD v b) hzero
    simp [hb] at hbit
  · intro hclear
    simp [hclear]

theorem wordBit_or_bitMask {w : UInt64} {b : ℕ} (hb : b < 64) (i : ℕ) :
    wordBit (w ||| bitMask b) i = (wordBit w i || decide (b = i)) := by
  rw [wordBit, UInt64.toBitVec_or, toBitVec_bitMask hb, BitVec.getLsbD_or, BitVec.getLsbD_twoPow]
  by_cases hbi : b = i
  · subst hbi
    simp [wordBit, hb]
  · simp [wordBit, hbi]

theorem wordBit_and_not_bitMask {w : UInt64} {b : ℕ} (hb : b < 64) (i : ℕ) :
    wordBit (w &&& ~~~bitMask b) i = (wordBit w i && decide (b ≠ i)) := by
  rw [wordBit, UInt64.toBitVec_and, UInt64.toBitVec_not, toBitVec_bitMask hb, BitVec.getLsbD_and,
    BitVec.getLsbD_not, BitVec.getLsbD_twoPow]
  by_cases hi : i < 64
  · by_cases hbi : b = i
    · subst hbi
      simp [hb]
    · simp [wordBit, hbi, hi]
  · have hzero : w.toBitVec.getLsbD i = false := BitVec.getLsbD_of_ge _ _ (by omega)
    simp [wordBit, hzero]

@[simp] theorem wordBit_zero (i : ℕ) : wordBit 0 i = false := by
  simp [wordBit]

/-! ## Bitmaps -/

/-- A bitmap of `64 * n` bits. -/
abbrev Bitmap (n : ℕ) := Vector UInt64 n

namespace Bitmap

variable {n : ℕ}

/-- `bitmap[i / 64] & (1 << (i % 64)) != 0`.  An index past the last word reads
clear. -/
def isSet (bitmap : Bitmap n) (i : ℕ) : Bool :=
  match bitmap[i / 64]? with
  | some word => !(word &&& bitMask (i % 64) == 0)
  | none => false

/-- `bitmap[i / 64] |= 1 << (i % 64)`. -/
def set (bitmap : Bitmap n) (i : ℕ) : Bitmap n :=
  match bitmap[i / 64]? with
  | some word => bitmap.setIfInBounds (i / 64) (word ||| bitMask (i % 64))
  | none => bitmap

/-- `bitmap[i / 64] &= !(1 << (i % 64))`. -/
def clear (bitmap : Bitmap n) (i : ℕ) : Bitmap n :=
  match bitmap[i / 64]? with
  | some word => bitmap.setIfInBounds (i / 64) (word &&& ~~~bitMask (i % 64))
  | none => bitmap

theorem isSet_eq (bitmap : Bitmap n) (i : ℕ) :
    isSet bitmap i = ((bitmap[i / 64]?).map fun word => wordBit word (i % 64)).getD false := by
  unfold isSet
  cases bitmap[i / 64]? with
  | none => rfl
  | some word =>
    have hbit := and_bitMask_eq_zero (w := word) (Nat.mod_lt i (by decide : 0 < 64))
    cases hcase : wordBit word (i % 64) with
    | false => simp [hcase, hbit.mpr hcase]
    | true =>
      have hne : word &&& bitMask (i % 64) ≠ 0 := by
        rw [Ne, hbit, hcase]
        decide
      simp [hcase, hne]

/-- Setting a bit inside the bitmap sets that bit and no other. -/
theorem isSet_set (bitmap : Bitmap n) {i : ℕ} (hi : i < 64 * n) (j : ℕ) :
    isSet (set bitmap i) j = (isSet bitmap j || decide (i = j)) := by
  have hword : i / 64 < n := by omega
  have hbit : i % 64 < 64 := Nat.mod_lt _ (by decide)
  rw [isSet_eq, isSet_eq, set, Vector.getElem?_eq_getElem hword]
  simp only [Vector.getElem?_setIfInBounds]
  by_cases hsame : i / 64 = j / 64
  · have hiff : decide (i % 64 = j % 64) = decide (i = j) := by
      rw [decide_eq_decide]
      omega
    rw [if_pos hsame, if_pos (hsame ▸ hword), ← hsame, Vector.getElem?_eq_getElem hword]
    simp only [Option.map_some, Option.getD_some]
    rw [wordBit_or_bitMask hbit, hiff]
  · have hne : i ≠ j := fun heq => hsame (by rw [heq])
    rw [if_neg hsame]
    simp [hne]

/-- Clearing a bit inside the bitmap clears that bit and no other. -/
theorem isSet_clear (bitmap : Bitmap n) {i : ℕ} (hi : i < 64 * n) (j : ℕ) :
    isSet (clear bitmap i) j = (isSet bitmap j && decide (i ≠ j)) := by
  have hword : i / 64 < n := by omega
  have hbit : i % 64 < 64 := Nat.mod_lt _ (by decide)
  rw [isSet_eq, isSet_eq, clear, Vector.getElem?_eq_getElem hword]
  simp only [Vector.getElem?_setIfInBounds]
  by_cases hsame : i / 64 = j / 64
  · have hiff : decide (i % 64 ≠ j % 64) = decide (i ≠ j) := by
      rw [decide_eq_decide]
      omega
    rw [if_pos hsame, if_pos (hsame ▸ hword), ← hsame, Vector.getElem?_eq_getElem hword]
    simp only [Option.map_some, Option.getD_some]
    rw [wordBit_and_not_bitMask hbit, hiff]
  · have hne : i ≠ j := fun heq => hsame (by rw [heq])
    rw [if_neg hsame]
    simp [hne]

@[simp] theorem isSet_replicate_zero (i : ℕ) :
    isSet (Vector.replicate n 0 : Bitmap n) i = false := by
  rw [isSet_eq, Vector.getElem?_replicate]
  split <;> simp

end Bitmap

end Hyperion.Lib
