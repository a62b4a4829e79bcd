import Hyperion.Lib.OnesComplement
import Hyperion.Net.Echo

/-!
# The checksum is a ones'-complement sum

`csum16` adds the words of a slice in a `u32`, adds the carries back at the end and
complements the result.  An addition on `u32` wraps in a release build and faults in a
development build, where overflow checks are on; `csum16With` is the function in either
build.  For up to 131072 bytes the accumulator does not overflow, so that both builds return
the same, and what is complemented is a reduction of the sum of the words
(`returns_csum16With`).  There is one such word, the ones'-complement sum
(`csum16_checksum`).
-/

namespace Hyperion.Net

open Hyperion.Lib

variable {overflowChecks : Bool} {bytes : List UInt8}

/-- A sum that fits is exact in either build. -/
theorem returns_addU32 {a b : UInt32} (hlt : a.toNat + b.toNat < 2 ^ 32) :
    Returns (addU32 overflowChecks a b) fun sum => sum.toNat = a.toNat + b.toNat := by
  have hsum : (a + b).toNat = a.toNat + b.toNat := by
    rw [UInt32.toNat_add, Nat.mod_eq_of_lt hlt]
  exact ⟨a + b, if_neg fun hover => absurd hover.2 (Nat.not_le.mpr hlt), hsum⟩

/-! ## Adding up the words -/

theorem toNat_be16 (hi lo : UInt8) : (be16 [hi, lo]).toNat = fromBe [hi, lo] := by
  have hle := fromBe_pair_le hi lo
  rw [be16, UInt16.toNat_ofNat_of_lt']
  exact Nat.lt_of_le_of_lt hle (by decide)

/-- The accumulator is the sum of the words so far. -/
structure Summed (bytes : List UInt8) (state : ℕ × UInt32) : Prop where
  even : Even state.1
  le : state.1 ≤ bytes.length
  sum : state.2.toNat = (beWords (bytes.take state.1)).sum

/-- The sums of a slice of this length fit in a `u32`. -/
theorem sum_take_lt (hlength : bytes.length ≤ 131072) (i : ℕ) :
    (beWords (bytes.take i)).sum < 2 ^ 32 := by
  have hbound := sum_beWords_le (bytes.take i)
  have htake : (bytes.take i).length ≤ bytes.length := List.length_take_le' i bytes
  omega

theorem returns_sumTurn (hlength : bytes.length ≤ 131072) (state : ℕ × UInt32)
    (summed : Summed bytes state) :
    Returns (sumTurn overflowChecks bytes state) (TurnPost (Summed bytes)
      (fun state => bytes.length - state.1)
      (fun result => Summed bytes result ∧ bytes.length ≤ result.1 + 1) state) := by
  obtain ⟨i, sum⟩ := state
  have heven : Even i := summed.even
  have hsum : sum.toNat = (beWords (bytes.take i)).sum := summed.sum
  rw [sumTurn]
  split
  · rename_i hmore
    obtain ⟨hi, lo, hword⟩ : ∃ hi lo, bytesAt bytes i 2 = [hi, lo] :=
      List.length_eq_two.mp (length_bytesAt (by omega))
    have htake : bytes.take (i + 2) = bytes.take i ++ [hi, lo] := by
      rw [← hword, List.take_add]
      rfl
    have hnext : (beWords (bytes.take (i + 2))).sum =
        (beWords (bytes.take i)).sum + fromBe [hi, lo] := by
      have hfront : Even (bytes.take i).length := by
        rwa [List.length_take, min_eq_left (by omega)]
      rw [htake, beWords_append hfront]
      simp [beWords]
    have hvalue : (be16 [hi, lo]).toUInt32.toNat = fromBe [hi, lo] := by
      rw [UInt16.toNat_toUInt32, toNat_be16]
    rw [← hsum, ← hvalue] at hnext
    rw [readBytes_of_le (by omega), hword]
    have hfits := sum_take_lt hlength (i + 2)
    rw [hnext] at hfits
    refine (returns_addU32 hfits).bind fun next hadd => returns_pure ?_
    exact ⟨⟨heven.add even_two, by simp; omega, hadd.trans hnext.symm⟩, by simp; omega⟩
  · rename_i hend
    exact returns_pure ⟨summed, by simp; omega⟩

/-- The accumulator in front of the second loop. -/
theorem returns_addLast (hlength : bytes.length ≤ 131072) {i : ℕ} {sum : UInt32}
    (summed : Summed bytes (i, sum)) (hend : bytes.length ≤ i + 1) :
    Returns (addLast overflowChecks bytes i sum) fun total =>
      total.toNat = (beWords bytes).sum := by
  have hle : i ≤ bytes.length := summed.le
  have hsum : sum.toNat = (beWords (bytes.take i)).sum := summed.sum
  rw [addLast]
  split
  · rename_i hodd
    rw [index_of_lt hodd]
    generalize hlast : bytes[i] = last
    have hall : bytes.take i ++ [last] = bytes := by
      rw [← hlast, List.take_concat_get' bytes i hodd, List.take_of_length_le hend]
    have hfront : Even (bytes.take i).length := by
      rw [List.length_take, min_eq_left hle]
      exact summed.even
    have htotal : (beWords bytes).sum = (beWords (bytes.take i)).sum + last.toNat * 256 := by
      conv_lhs => rw [← hall, beWords_append hfront]
      simp [beWords, fromBe_pair]
    have hfits := sum_take_lt hlength bytes.length
    have hshift : (last.toUInt32 <<< 8).toNat = last.toNat * 256 := by
      have hbyte := last.toNat_lt
      rw [UInt32.toNat_shiftLeft, UInt8.toNat_toUInt32, Nat.shiftLeft_eq]
      exact Nat.mod_eq_of_lt (by simp; omega)
    rw [← hsum, ← hshift] at htotal
    rw [List.take_length, htotal] at hfits
    exact (returns_addU32 hfits).mono fun total hadd => hadd.trans htotal.symm
  · rename_i heven
    apply returns_pure
    rw [hsum, List.take_of_length_le (by omega)]

/-! ## Adding the carries back -/

theorem toNat_shiftRight_sixteen (sum : UInt32) : (sum >>> 16).toNat = sum.toNat / 0x10000 := by
  rw [UInt32.toNat_shiftRight, Nat.shiftRight_eq_div_pow]
  rfl

theorem shiftRight_ne_zero {sum : UInt32} : sum >>> 16 ≠ 0 ↔ 0xffff < sum.toNat := by
  rw [Ne, ← UInt32.toNat_inj, toNat_shiftRight_sixteen, UInt32.toNat_zero]
  omega

theorem toNat_low (sum : UInt32) : (sum &&& (0xffff : UInt32)).toNat = sum.toNat % 0x10000 :=
  Nat.and_two_pow_sub_one_eq_mod _ 16

/-- The carries are added back without a new one out of the `u32`. -/
theorem returns_carry (sum : UInt32) :
    Returns (addU32 overflowChecks (sum &&& 0xffff) (sum >>> 16)) fun next =>
      next.toNat = sum.toNat % 0x10000 + sum.toNat / 0x10000 := by
  have hlt := sum.toNat_lt
  have hfits : (sum &&& (0xffff : UInt32)).toNat + (sum >>> 16).toNat < 2 ^ 32 := by
    rw [toNat_low, toNat_shiftRight_sixteen]
    omega
  refine (returns_addU32 hfits).mono fun next hnext => ?_
  rw [hnext, toNat_low, toNat_shiftRight_sixteen]

/-- How often the carries of a sum have to be added back. -/
def carries (sum : UInt32) : ℕ :=
  if sum.toNat ≤ 0xffff then 0 else if sum.toNat ≤ 0x1fffe then 1 else 2

theorem returns_foldTurn {sum : UInt32} (state : UInt32)
    (hstate : ∀ x, Reduces 0xffff x state.toNat ↔ Reduces 0xffff x sum.toNat) :
    Returns (foldTurn overflowChecks state)
      (TurnPost (fun state => ∀ x, Reduces 0xffff x state.toNat ↔ Reduces 0xffff x sum.toNat)
        carries (fun result => Reduces 0xffff result.toNat sum.toNat) state) := by
  rw [foldTurn]
  split
  · rename_i hmore
    rw [shiftRight_ne_zero] at hmore
    refine (returns_carry state).bind fun next hcarry => returns_pure ⟨fun x => ?_, ?_⟩
    · rw [hcarry, ← hstate x]
      exact reduces_carry
    · have hlt := state.toNat_lt
      unfold carries
      split_ifs <;> omega
  · rename_i hdone
    rw [shiftRight_ne_zero, not_lt] at hdone
    exact returns_pure ((hstate _).mp (reduces_self hdone))

theorem returns_fold (sum : UInt32) :
    Returns (loop (foldTurn overflowChecks) 3 sum) fun result =>
      Reduces 0xffff result.toNat sum.toNat := by
  refine returns_loop returns_foldTurn 3 sum (fun x => Iff.rfl) ?_
  unfold carries
  split_ifs <;> decide

/-- `csum16` ends, and what it complements is a reduction of the sum of the words. -/
theorem returns_csum16With (overflowChecks : Bool) (hlength : bytes.length ≤ 131072) :
    Returns (csum16With overflowChecks bytes) fun csum =>
      Reduces 0xffff (0xffff - csum.toNat) (beWords bytes).sum := by
  have hstart : Summed bytes (0, 0) := ⟨Even.zero, Nat.zero_le _, by simp [beWords]⟩
  rw [csum16With]
  refine (returns_loop (returns_sumTurn hlength) _ _ hstart (by simp)).bind ?_
  rintro ⟨i, sum⟩ ⟨summed, hend⟩
  refine (returns_addLast hlength summed hend).bind fun total htotal => ?_
  refine (returns_fold total).bind fun result hresult => returns_pure ?_
  rw [htotal] at hresult
  have hle := hresult.le
  have hcomplement : (~~~ result.toUInt16).toNat = 0xffff - result.toNat := by
    rw [UInt16.toNat_not, UInt32.toNat_toUInt16, Nat.mod_eq_of_lt (by omega)]
    rfl
  rwa [hcomplement, Nat.sub_sub_self hle]

theorem returns_csum16 (hlength : bytes.length ≤ 131072) :
    Returns (csum16 bytes) fun csum =>
      Reduces 0xffff (0xffff - csum.toNat) (beWords bytes).sum := by
  exact returns_csum16With false hlength

/-! ## The checksum -/

/-- A reduction of the sum of the words is the ones'-complement sum. -/
theorem add_internetSum {csum : UInt16}
    (hcsum : Reduces 0xffff (0xffff - csum.toNat) (beWords bytes).sum) :
    csum.toNat + internetSum bytes = 0xffff := by
  have hlt := csum.toNat_lt
  rw [← hcsum.unique (reduces_internetSum bytes)]
  omega

/-- **The checksum.**  For up to 131072 bytes, `csum16` returns the complement of the
ones'-complement sum of the words, with or without overflow checks, and stored in a field that
was zero it makes the sum all ones. -/
theorem csum16_checksum (hlength : bytes.length ≤ 131072) :
    ∃ csum, csum16 bytes = .ok csum ∧
      (∀ overflowChecks, csum16With overflowChecks bytes = .ok csum) ∧
      csum.toNat + internetSum bytes = 0xffff ∧
      ∀ off, Even off → off + 2 ≤ bytes.length → bytesAt bytes off 2 = [0, 0] →
        ∃ stored, writeBytes bytes off (toBe 2 csum.toNat) = .ok stored ∧
          internetSum stored = 0xffff := by
  obtain ⟨csum, hcsum, hreduces⟩ := returns_csum16 hlength
  refine ⟨csum, hcsum, fun overflowChecks => ?_, add_internetSum hreduces, ?_⟩
  · obtain ⟨other, hother, hreduces'⟩ := returns_csum16With overflowChecks hlength
    have hsame : other.toNat = csum.toNat := by
      have hsum := add_internetSum hreduces
      have hsum' := add_internetSum hreduces'
      omega
    rw [hother, UInt16.toNat_inj.mp hsame]
  · intro off heven hin hfield
    have hlt := csum.toNat_lt
    have hstored := internetSum_overwrite heven hin hfield hreduces
    rw [Nat.sub_sub_self (by omega)] at hstored
    exact ⟨_, writeBytes_of_le (by rwa [length_toBe]), hstored⟩

/-- A header of IPv4 without its checksum. -/
def sampleHeader : List UInt8 :=
  [0x45, 0, 0, 0x73, 0, 0, 0x40, 0, 0x40, 17, 0, 0, 192, 168, 0, 1, 192, 168, 0, 199]

theorem csum16_checksum_header :
    ∃ csum stored, csum16 sampleHeader = .ok csum ∧
      (∀ overflowChecks, csum16With overflowChecks sampleHeader = .ok csum) ∧
      csum.toNat + internetSum sampleHeader = 0xffff ∧
      writeBytes sampleHeader 10 (toBe 2 csum.toNat) = .ok stored ∧
      internetSum stored = 0xffff := by
  have hlength : sampleHeader.length ≤ 131072 := by decide
  obtain ⟨csum, hcsum, hchecks, hsum, hfield⟩ := csum16_checksum hlength
  obtain ⟨stored, hstored, hones⟩ := hfield 10 (by decide) (by decide) rfl
  exact ⟨csum, stored, hcsum, hchecks, hsum, hstored, hones⟩

example : csum16 sampleHeader = .ok 0xb861 := rfl

end Hyperion.Net
