import Mathlib

/-!
# Digital lines

A digital line from one point of the grid to another takes as many steps as the longer of its two
sides is long.  After `i` of `n` steps it has gone `i * m / n` along a side of length `m`, rounded
to the nearest integer, a half up (`rounded`).  So it goes on by one along the longer side at
each step, and by zero or one along the other.

Bresenham's algorithm divides nothing.  It keeps the difference `error` and goes on along a side
if twice the difference has not passed a bound, which is a side itself (`rounded_succ_first`,
`rounded_succ_second`).
-/

namespace Hyperion.Lib.DigitalLine

/-- `i * m / n` rounded to the nearest integer, a half up. -/
def rounded (i m n : ℕ) : ℕ := (2 * (i * m) + n) / (2 * n)

section Rounded

variable {i m n r : ℕ}

theorem rounded_eq_iff (hn : 0 < n) :
    rounded i m n = r ↔ 2 * (n * r) ≤ 2 * (i * m) + n ∧ 2 * (i * m) + n < 2 * (n * r) + 2 * n := by
  rw [rounded, Nat.div_eq_iff (by omega), Nat.mul_comm r, Nat.mul_assoc]
  omega

@[simp] theorem rounded_start (m n : ℕ) : rounded 0 m n = 0 := by
  rw [rounded, Nat.zero_mul, Nat.mul_zero, Nat.zero_add]
  exact Nat.div_eq_zero_iff.mpr (by omega)

@[simp] theorem rounded_flat (i n : ℕ) : rounded i 0 n = 0 := by
  rw [rounded, Nat.mul_zero, Nat.mul_zero, Nat.zero_add]
  exact Nat.div_eq_zero_iff.mpr (by omega)

/-- Along the longer side, it goes on by one at each step. -/
theorem rounded_self (hn : 0 < n) (i : ℕ) : rounded i n n = i := by
  rw [rounded_eq_iff hn, Nat.mul_comm i]
  omega

theorem rounded_end (hn : 0 < n) (m : ℕ) : rounded n m n = m := by
  rw [rounded_eq_iff hn]
  omega

theorem rounded_succ (hn : 0 < n) (hm : m ≤ n) :
    rounded (i + 1) m n =
      rounded i m n + if 2 * (n * rounded i m n) + n ≤ 2 * ((i + 1) * m) then 1 else 0 := by
  obtain ⟨hlow, hhigh⟩ := (rounded_eq_iff (i := i) (m := m) hn).mp rfl
  have hnext : (i + 1) * m = i * m + m := Nat.succ_mul i m
  rw [rounded_eq_iff hn, hnext]
  split
  case isTrue hgo =>
    rw [Nat.mul_add]
    omega
  case isFalse hstay =>
    rw [Nat.add_zero]
    omega

/-- Along the shorter side, by zero or one. -/
theorem rounded_succ_eq_or (hn : 0 < n) (hm : m ≤ n) (i : ℕ) :
    rounded (i + 1) m n = rounded i m n ∨ rounded (i + 1) m n = rounded i m n + 1 := by
  rw [rounded_succ hn hm]
  split
  · exact .inr rfl
  · exact .inl rfl

theorem rounded_le (hn : 0 < n) (hi : i ≤ n) (m : ℕ) : rounded i m n ≤ m := by
  obtain ⟨hlow, _⟩ := (rounded_eq_iff (i := i) (m := m) hn).mp rfl
  by_contra hgt
  have hmul : i * m ≤ n * m := Nat.mul_le_mul_right m hi
  have hpast : n * (m + 1) ≤ n * rounded i m n := Nat.mul_le_mul_left n (by omega)
  rw [Nat.mul_add] at hpast
  omega

end Rounded

/-! ## Points -/

/-- The coordinate after `i` of `n` steps from `s` to `t`. -/
def along (s t : ℤ) (n i : ℕ) : ℤ := s + (t - s).sign * rounded i (t - s).natAbs n

/-- The length of the longer side. -/
def steps (p q : ℤ × ℤ) : ℕ := max (q.1 - p.1).natAbs (q.2 - p.2).natAbs

/-- The point after `i` steps from `p` to `q`. -/
def point (p q : ℤ × ℤ) (i : ℕ) : ℤ × ℤ :=
  (along p.1 q.1 (steps p q) i, along p.2 q.2 (steps p q) i)

/-- The coordinates of a digital line of `n` steps along the side from `s` to `t`. -/
structure Travels (s t : ℤ) (n : ℕ) (c : ℕ → ℤ) : Prop where
  start : c 0 = s
  finish : c n = t
  step : ∀ i < n, c (i + 1) = c i ∨ c (i + 1) = c i + (t - s).sign
  longer : (t - s).natAbs = n → ∀ i < n, c (i + 1) = c i + (t - s).sign
  displacement : ∀ i ≤ n, (c i - s).natAbs = rounded i (t - s).natAbs n

section Along

variable {s t : ℤ} {n i : ℕ}

theorem along_succ (s t : ℤ) (n i : ℕ) :
    along s t n (i + 1) = along s t n i + (t - s).sign *
      ((rounded (i + 1) (t - s).natAbs n : ℤ) - rounded i (t - s).natAbs n) := by
  rw [along, along]
  ring

theorem along_end (hm : (t - s).natAbs ≤ n) : along s t n n = t := by
  rcases Nat.eq_zero_or_pos n with rfl | hn
  · rw [along, rounded_start]
    omega
  · rw [along, rounded_end hn, Int.sign_mul_natAbs]
    omega

theorem travels_along (hm : (t - s).natAbs ≤ n) : Travels s t n (along s t n) where
  start := by rw [along, rounded_start, Nat.cast_zero, mul_zero, add_zero]
  finish := along_end hm
  step := by
    intro i hi
    rw [along_succ]
    rcases rounded_succ_eq_or (Nat.zero_lt_of_lt hi) hm i with hstay | hgo
    · left
      rw [hstay, sub_self, mul_zero, add_zero]
    · right
      rw [hgo, Nat.cast_succ, add_sub_cancel_left, mul_one]
  longer := by
    intro heq i hi
    have hn := Nat.zero_lt_of_lt hi
    rw [along_succ, heq, rounded_self hn, rounded_self hn, Nat.cast_succ, add_sub_cancel_left,
      mul_one]
  displacement := by
    intro i _
    rw [along, add_sub_cancel_left, Int.natAbs_mul, Int.natAbs_natCast]
    rcases eq_or_ne (t - s) 0 with hzero | hne
    · rw [hzero, Int.natAbs_zero, rounded_flat, Nat.mul_zero]
    · rw [Int.natAbs_sign_of_ne_zero hne, Nat.one_mul]

theorem along_between (hi : i ≤ n) (hm : (t - s).natAbs ≤ n) :
    min s t ≤ along s t n i ∧ along s t n i ≤ max s t := by
  have hle : rounded i (t - s).natAbs n ≤ (t - s).natAbs := by
    rcases Nat.eq_zero_or_pos n with rfl | hn
    · rw [Nat.le_zero.mp hi, rounded_start]
      exact Nat.zero_le _
    · exact rounded_le hn hi _
  unfold along
  rcases lt_trichotomy (t - s) 0 with hneg | hzero | hpos
  · rw [Int.sign_eq_neg_one_of_neg hneg]
    omega
  · rw [hzero, Int.sign_zero]
    omega
  · rw [Int.sign_eq_one_of_pos hpos]
    omega

end Along

theorem natAbs_first_le (p q : ℤ × ℤ) : (q.1 - p.1).natAbs ≤ steps p q := le_max_left _ _

theorem natAbs_second_le (p q : ℤ × ℤ) : (q.2 - p.2).natAbs ≤ steps p q := le_max_right _ _

/-- The end is not reached before the last step. -/
theorem point_ne {p q : ℤ × ℤ} {i : ℕ} (hi : i < steps p q) : point p q i ≠ q := by
  intro hend
  have hn := Nat.zero_lt_of_lt hi
  have hfirst := (travels_along (natAbs_first_le p q)).displacement i hi.le
  have hsecond := (travels_along (natAbs_second_le p q)).displacement i hi.le
  rw [show along p.1 q.1 (steps p q) i = q.1 from congrArg Prod.fst hend] at hfirst
  rw [show along p.2 q.2 (steps p q) i = q.2 from congrArg Prod.snd hend] at hsecond
  rcases max_choice (q.1 - p.1).natAbs (q.2 - p.2).natAbs with hmax | hmax
  · have hlong : (q.1 - p.1).natAbs = steps p q := hmax.symm
    rw [hlong, rounded_self hn] at hfirst
    exact hi.ne' hfirst
  · have hlong : (q.2 - p.2).natAbs = steps p q := hmax.symm
    rw [hlong, rounded_self hn] at hsecond
    exact hi.ne' hsecond

/-! ## The error -/

section Error

variable {a b : ℕ}

/-- How far the points after `i` steps of a line with the sides `a` and `b` are off, as the
algorithm keeps it: for the point that is one further on both sides. -/
def error (a b i : ℕ) : ℤ :=
  a * ((rounded i b (max a b) : ℤ) + 1) - b * ((rounded i a (max a b) : ℤ) + 1)

theorem error_start (a b : ℕ) : error a b 0 = a - b := by
  rw [error, rounded_start, rounded_start]
  ring

theorem error_swap (a b i : ℕ) : error b a i = -error a b i := by
  rw [error, error, max_comm b a]
  ring

/-- The error of a line whose first side is the longer one. -/
theorem two_mul_error_bounds (hb : b ≤ a) (ha : 0 < a) (i : ℕ) :
    (a : ℤ) - 2 * b < 2 * error a b i ∧ 2 * error a b i ≤ 3 * a - 2 * b := by
  obtain ⟨hlow, hhigh⟩ := (rounded_eq_iff (i := i) (m := b) ha).mp rfl
  have herror : error a b i = (a : ℤ) * rounded i b a + a - (i * b + b) := by
    rw [error, max_eq_left hb, rounded_self ha]
    ring
  zify at hlow hhigh
  omega

theorem abs_two_mul_error_le (hpos : 0 < max a b) (i : ℕ) :
    -(3 * (max a b : ℤ)) ≤ 2 * error a b i ∧ 2 * error a b i ≤ 3 * max a b := by
  rcases le_total b a with hle | hle
  · have hbounds := two_mul_error_bounds hle (by omega) i
    omega
  · have hbounds := two_mul_error_bounds hle (by omega) i
    rw [error_swap] at hbounds
    omega

/-- When the algorithm goes on along the first side. -/
theorem rounded_succ_first (hpos : 0 < max a b) (i : ℕ) :
    rounded (i + 1) a (max a b) =
      rounded i a (max a b) + if -(b : ℤ) ≤ 2 * error a b i then 1 else 0 := by
  rcases Nat.lt_or_ge a b with hlt | hle
  · -- the second side is the longer one
    have hmax : max a b = b := max_eq_right hlt.le
    have herror : error a b i = (i + 1) * a - (b * rounded i a b + b) := by
      rw [error, hmax, rounded_self (by omega)]
      ring
    rw [hmax, rounded_succ (by omega) hlt.le]
    congr 1
    refine if_congr ?_ rfl rfl
    rw [herror]
    zify
    omega
  · have hmax : max a b = a := max_eq_left hle
    have ha : 0 < a := by omega
    have hbounds := two_mul_error_bounds hle ha i
    rw [hmax, rounded_self ha, rounded_self ha, if_pos (by omega)]

theorem rounded_succ_second (hpos : 0 < max a b) (i : ℕ) :
    rounded (i + 1) b (max a b) =
      rounded i b (max a b) + if 2 * error a b i ≤ a then 1 else 0 := by
  have hfirst := rounded_succ_first (a := b) (b := a) (by rwa [max_comm]) i
  rw [max_comm b a, error_swap] at hfirst
  rw [hfirst]
  congr 1
  exact if_congr (by omega) rfl rfl

theorem error_succ (hpos : 0 < max a b) (i : ℕ) :
    error a b (i + 1) = error a b i - (if -(b : ℤ) ≤ 2 * error a b i then (b : ℤ) else 0) +
      if 2 * error a b i ≤ a then (a : ℤ) else 0 := by
  have hfirst := rounded_succ_first hpos i
  have hsecond := rounded_succ_second hpos i
  rw [error, hfirst, hsecond]
  split
  · split
    · rw [error]
      push_cast
      ring
    · rw [error]
      push_cast
      ring
  · split
    · rw [error]
      push_cast
      ring
    · rw [error]
      push_cast
      ring

end Error

end Hyperion.Lib.DigitalLine
