import Hyperion.Lib.Checked

/-!
# Two ways to compute the uptime

`sys_uptime` of `syscall/mod.rs` and `cmd_uptime` of `shell/commands.rs` turn the counter into
milliseconds.  Both multiply by 1000 first, one with saturation and the other one without.  As long
as the product fits into 64 bits, both are exact.  Behind that, the product of the shell wraps by
2^64 at least, which is more than any frequency, so that its quotient is always too small
(`uptime_exact_iff`).
-/

namespace Hyperion.Shell.Uptime

open Hyperion.Lib

/-- `u64::saturating_mul`. -/
def saturatingMul (a b : UInt64) : UInt64 := UInt64.ofNat (min (a.toNat * b.toNat) (2 ^ 64 - 1))

/-- `a * b` on `u64`.  It wraps in a release build, where overflow checks are off. -/
def mul (overflowChecks : Bool) (a b : UInt64) : Checked UInt64 :=
  if overflowChecks = true ∧ 2 ^ 64 ≤ a.toNat * b.toNat then .error .overflow else .ok (a * b)

/-- `sys_uptime`, with the values of `timer_freq` and `timer_count`. -/
def sysUptime (f c : UInt64) : Int64 :=
  if f = 0 then 0 else (saturatingMul c 1000 / f).toInt64

/-- The milliseconds that `cmd_uptime` prints. -/
def cmdUptime (overflowChecks : Bool) (f c : UInt64) : Checked UInt64 :=
  if f = 0 then pure 0
  else do
    let product ← mul overflowChecks c 1000
    pure (product / f)

/-- The time in whole milliseconds. -/
def millis (f c : UInt64) : ℕ := 1000 * c.toNat / f.toNat

/-- Both computations are exact. -/
structure Exact (overflowChecks : Bool) (f c : UInt64) : Prop where
  shell : ∃ ms, cmdUptime overflowChecks f c = .ok ms ∧ ms.toNat = millis f c
  syscall : (sysUptime f c).toInt = millis f c

section Products

variable {f c : UInt64}

theorem ne_zero_of_one_le (hf : 1 ≤ f.toNat) : f ≠ 0 := by
  rintro rfl
  exact absurd hf (by decide)

theorem toNat_mul_thousand (c : UInt64) : (c * 1000).toNat = 1000 * c.toNat % 2 ^ 64 := by
  rw [UInt64.toNat_mul, Nat.mul_comm]
  rfl

/-- A product that wraps loses more than the divisor. -/
theorem mod_div_lt_div {p d m : ℕ} (hp : m ≤ p) (hd : d < m) (hpos : 0 < d) :
    p % m / d < p / d := by
  have hle : p % m + d ≤ p := by
    have hquotient : 1 ≤ p / m := (Nat.one_le_div_iff (hpos.trans hd)).mpr hp
    have hmul : m * 1 ≤ m * (p / m) := Nat.mul_le_mul_left m hquotient
    have hsplit := Nat.div_add_mod p m
    omega
  calc p % m / d
      < p % m / d + 1 := Nat.lt_succ_self _
    _ = (p % m + d) / d := (Nat.add_div_right _ hpos).symm
    _ ≤ p / d := Nat.div_le_div_right hle

theorem cmdUptime_of_lt (overflowChecks : Bool) (hf : 1 ≤ f.toNat) (hlt : 1000 * c.toNat < 2 ^ 64) :
    ∃ ms, cmdUptime overflowChecks f c = .ok ms ∧ ms.toNat = millis f c := by
  have hf0 := ne_zero_of_one_le hf
  have hthousand : (1000 : UInt64).toNat = 1000 := rfl
  refine ⟨c * 1000 / f, ?_, ?_⟩
  · rw [cmdUptime, if_neg hf0, mul, hthousand, if_neg (by omega)]
    rfl
  · rw [UInt64.toNat_div, toNat_mul_thousand, Nat.mod_eq_of_lt hlt]
    rfl

theorem not_cmdUptime_of_le {overflowChecks : Bool} (hf : 1 ≤ f.toNat)
    (hle : 2 ^ 64 ≤ 1000 * c.toNat) :
    ¬∃ ms, cmdUptime overflowChecks f c = .ok ms ∧ ms.toNat = millis f c := by
  have hf0 := ne_zero_of_one_le hf
  rintro ⟨ms, hms, hexact⟩
  rw [cmdUptime, if_neg hf0] at hms
  obtain ⟨product, hproduct, hquotient⟩ := bind_eq_ok.mp hms
  obtain rfl := Except.ok.inj hquotient
  unfold mul at hproduct
  split at hproduct
  case isTrue => cases hproduct
  case isFalse =>
    obtain rfl := Except.ok.inj hproduct
    have hless := mod_div_lt_div hle f.toNat_lt hf
    rw [UInt64.toNat_div, toNat_mul_thousand, millis] at hexact
    omega

theorem sysUptime_of_lt (hf : 1 ≤ f.toNat) (hlt : 1000 * c.toNat < 2 ^ 64)
    (hfits : millis f c < 2 ^ 63) : (sysUptime f c).toInt = millis f c := by
  have hf0 := ne_zero_of_one_le hf
  have hproduct : (saturatingMul c 1000).toNat = 1000 * c.toNat := by
    have hthousand : (1000 : UInt64).toNat = 1000 := rfl
    rw [saturatingMul, hthousand, UInt64.toNat_ofNat_of_lt' (by
      show min (c.toNat * 1000) (2 ^ 64 - 1) < 2 ^ 64
      omega)]
    omega
  have hquotient : (saturatingMul c 1000 / f).toNat = millis f c := by
    rw [UInt64.toNat_div, hproduct]
    rfl
  have hpositive : 2 * (saturatingMul c 1000 / f).toBitVec.toNat < 2 ^ 64 := by
    show 2 * (saturatingMul c 1000 / f).toNat < 2 ^ 64
    omega
  rw [sysUptime, if_neg hf0, ← hquotient]
  exact BitVec.toInt_eq_toNat_of_lt hpositive

end Products

/-- **The uptime.**  Both computations are exact exactly as long as the product fits into 64 bits,
and until then they do not decrease. -/
theorem uptime_exact_iff (overflowChecks : Bool) (f c : UInt64) (hf : 1 ≤ f.toNat)
    (hfits : millis f c < 2 ^ 63) :
    (Exact overflowChecks f c ↔ 1000 * c.toNat < 2 ^ 64) ∧
      (1000 * c.toNat < 2 ^ 64 → ∀ earlier ≤ c,
        Exact overflowChecks f earlier ∧ millis f earlier ≤ millis f c) := by
  refine ⟨⟨?_, ?_⟩, ?_⟩
  · intro hexact
    by_contra hle
    exact not_cmdUptime_of_le hf (Nat.le_of_not_lt hle) hexact.shell
  · intro hlt
    exact ⟨cmdUptime_of_lt overflowChecks hf hlt, sysUptime_of_lt hf hlt hfits⟩
  · intro hlt earlier hearlier
    have hle : earlier.toNat ≤ c.toNat := UInt64.le_iff_toNat_le.mp hearlier
    have hmillis : millis f earlier ≤ millis f c :=
      Nat.div_le_div_right (Nat.mul_le_mul_left 1000 hle)
    have hlt' : 1000 * earlier.toNat < 2 ^ 64 := by omega
    exact ⟨⟨cmdUptime_of_lt overflowChecks hf hlt',
      sysUptime_of_lt hf hlt' (hmillis.trans_lt hfits)⟩, hmillis⟩

/-- One hour at 1 GHz. -/
theorem uptime_exact_iff_hour : Exact false 1000000000 3600000000000 :=
  (uptime_exact_iff false 1000000000 3600000000000 (by decide) (by decide)).1.mpr (by decide)

/-- After 213 days at 1 GHz the shell starts again at zero, and the system call does not. -/
theorem uptime_wraps :
    millis 1000000000 18446744073709552 = 18446744073 ∧
      cmdUptime false 1000000000 18446744073709552 = .ok 0 ∧
      sysUptime 1000000000 18446744073709552 = 18446744073 ∧
      cmdUptime false 1000000000 18446744073709551 = .ok 18446744073 ∧
      ¬Exact false 1000000000 18446744073709552 := by
  refine ⟨rfl, rfl, rfl, rfl, ?_⟩
  rintro ⟨⟨ms, hms, hexact⟩, _⟩
  have hzero : cmdUptime false 1000000000 18446744073709552 = .ok 0 := rfl
  obtain rfl := Except.ok.inj (hzero.symm.trans hms)
  exact absurd hexact (by decide +kernel)

end Hyperion.Shell.Uptime
