import Hyperion.Lib.Bytes

/-!
# Ones'-complement sums

Ones'-complement addition adds the carry out of a word back at its bottom, so that sums
are taken modulo the word `m` of all ones.  Zero and `m` are the same number and
different words: only a sum of zeros is zero, and every other multiple of `m` is `m`.
`Reduces m x n` says that `x` is the word that a sum `n` comes to.  It does not matter
when the carries are added back, after every addition (`reduces_onesSum`) or all at the
end (`reduces_carry`).

`internetSum` is the sum over the 16-bit words of a header or a packet.  Complementing
the sum and storing it in a field that was zero makes the whole sum all ones
(`internetSum_of_checksum`, `internetSum_overwrite`).
-/

namespace Hyperion.Lib

/-- `a + b`, with the carry out of the word added back. -/
def onesAdd (m a b : ℕ) : ℕ := if a + b ≤ m then a + b else a + b - m

/-- The ones'-complement sum of a list of words. -/
def onesSum (m : ℕ) (words : List ℕ) : ℕ := words.foldl (onesAdd m) 0

/-- The word `x` is the ones'-complement representation of the sum `n`. -/
structure Reduces (m x n : ℕ) : Prop where
  le : x ≤ m
  modEq : x ≡ n [MOD m]
  zero_iff : x = 0 ↔ n = 0

section Reduces

variable {m x n : ℕ}

theorem reduces_self (hle : n ≤ m) : Reduces m n n := ⟨hle, rfl, Iff.rfl⟩

theorem Reduces.add (h : Reduces m x n) {word : ℕ} (hword : word ≤ m) :
    Reduces m (onesAdd m x word) (n + word) := by
  have hsum : x + word ≡ n + word [MOD m] := h.modEq.add_right word
  have hx := h.le
  have hzero := h.zero_iff
  unfold onesAdd
  split
  · rename_i hle
    exact ⟨hle, hsum, by omega⟩
  · rename_i hgt
    refine ⟨by omega, ?_, by omega⟩
    calc x + word - m ≡ x + word - m + m [MOD m] := by simp [Nat.ModEq]
      _ = x + word := by omega
      _ ≡ n + word [MOD m] := hsum

/-- Adding back what is above a word. -/
theorem reduces_carry : Reduces m x (n % (m + 1) + n / (m + 1)) ↔ Reduces m x n := by
  have hsplit : n % (m + 1) + n / (m + 1) + m * (n / (m + 1)) = n := by
    have hdiv := Nat.mod_add_div n (m + 1)
    rw [Nat.add_mul, Nat.one_mul] at hdiv
    omega
  have hmod : n % (m + 1) + n / (m + 1) ≡ n [MOD m] := by
    calc n % (m + 1) + n / (m + 1)
        ≡ n % (m + 1) + n / (m + 1) + m * (n / (m + 1)) [MOD m] := by simp [Nat.ModEq]
      _ = n := hsplit
  have hzero : n % (m + 1) + n / (m + 1) = 0 ↔ n = 0 := by
    constructor
    · intro hsum
      rw [← hsplit, hsum, Nat.add_eq_zero_iff.mp hsum |>.2]
      simp
    · rintro rfl
      simp
  exact ⟨fun h => ⟨h.le, h.modEq.trans hmod, h.zero_iff.trans hzero⟩,
    fun h => ⟨h.le, h.modEq.trans hmod.symm, h.zero_iff.trans hzero.symm⟩⟩

theorem Reduces.eq_of_dvd (h : Reduces m x n) (hdvd : m ∣ n) (hne : n ≠ 0) : x = m := by
  have hx : m ∣ x := (h.modEq.dvd_iff dvd_rfl).mpr hdvd
  have hpos : 0 < x := Nat.pos_of_ne_zero fun hzero => hne (h.zero_iff.mp hzero)
  exact Nat.le_antisymm h.le (Nat.le_of_dvd hpos hx)

/-- Of the two words for a multiple of `m`, a sum comes to one only. -/
theorem Reduces.unique {y : ℕ} (hx : Reduces m x n) (hy : Reduces m y n) : x = y := by
  have hmod : x ≡ y [MOD m] := hx.modEq.trans hy.modEq.symm
  have hzero : x = 0 ↔ y = 0 := hx.zero_iff.trans hy.zero_iff.symm
  have hxm := hx.le
  have hym := hy.le
  wlog hle : x ≤ y generalizing x y with hsymm
  · exact (hsymm hy hx hmod.symm hzero.symm hym hxm (Nat.le_of_not_le hle)).symm
  -- the difference is a multiple of `m`, and it is `m` only between the two words for it
  obtain ⟨k, hk⟩ := (Nat.modEq_iff_dvd' hle).mp hmod
  rcases Nat.eq_zero_or_pos k with rfl | hpos
  · rw [Nat.mul_zero] at hk
    omega
  · have hm : m ≤ m * k := Nat.le_mul_of_pos_right m hpos
    omega

theorem reduces_onesSum {words : List ℕ} (hwords : ∀ word ∈ words, word ≤ m) :
    Reduces m (onesSum m words) words.sum := by
  induction words using List.reverseRecOn with
  | nil => exact reduces_self (Nat.zero_le m)
  | append_singleton words word ih =>
    rw [onesSum, List.foldl_concat, List.sum_append, List.sum_singleton]
    exact (ih fun w hw => hwords w (by simp [hw])).add (hwords word (by simp))

end Reduces

/-! ## Words of bytes -/

/-- The big-endian 16-bit words of `bytes`; an odd last byte is the high one of its word. -/
def beWords : List UInt8 → List ℕ
  | hi :: lo :: rest => fromBe [hi, lo] :: beWords rest
  | [hi] => [fromBe [hi, 0]]
  | [] => []

/-- The ones'-complement sum of the 16-bit words of `bytes`. -/
def internetSum (bytes : List UInt8) : ℕ := onesSum 0xffff (beWords bytes)

theorem fromBe_pair (hi lo : UInt8) : fromBe [hi, lo] = hi.toNat * 256 + lo.toNat := by
  simp [fromBe, fromLe, Nat.ofDigits_cons]
  omega

theorem fromBe_pair_le (hi lo : UInt8) : fromBe [hi, lo] ≤ 0xffff := by
  have hhi := hi.toNat_lt
  have hlo := lo.toNat_lt
  rw [fromBe_pair]
  omega

theorem le_of_mem_beWords {bytes : List UInt8} : ∀ word ∈ beWords bytes, word ≤ 0xffff := by
  induction bytes using beWords.induct with
  | case1 hi lo rest ih =>
    intro word hword
    rcases List.mem_cons.mp hword with rfl | hword
    · exact fromBe_pair_le hi lo
    · exact ih word hword
  | case2 hi =>
    intro word hword
    obtain rfl := List.mem_singleton.mp hword
    exact fromBe_pair_le hi 0
  | case3 => simp [beWords]

theorem reduces_internetSum (bytes : List UInt8) :
    Reduces 0xffff (internetSum bytes) (beWords bytes).sum :=
  reduces_onesSum le_of_mem_beWords

theorem sum_beWords_le (bytes : List UInt8) :
    (beWords bytes).sum ≤ (bytes.length + 1) / 2 * 0xffff := by
  induction bytes using beWords.induct with
  | case1 hi lo rest ih =>
    have hword := fromBe_pair_le hi lo
    simp only [beWords, List.sum_cons, List.length_cons]
    omega
  | case2 hi => simpa [beWords] using fromBe_pair_le hi 0
  | case3 => simp [beWords]

theorem beWords_append {front back : List UInt8} (heven : Even front.length) :
    beWords (front ++ back) = beWords front ++ beWords back := by
  induction front using beWords.induct with
  | case1 hi lo rest ih =>
    have hrest : Even rest.length := by
      simpa [Nat.even_add_one] using heven
    simp [beWords, ih hrest]
  | case2 hi => simp at heven
  | case3 => simp [beWords]

/-- Storing a word in a field that was zero adds it to the sum. -/
theorem sum_beWords_field {front back : List UInt8} (heven : Even front.length) {word : ℕ}
    (hword : word ≤ 0xffff) :
    (beWords (front ++ toBe 2 word ++ back)).sum =
      (beWords (front ++ [0, 0] ++ back)).sum + word := by
  have hpair : ∃ hi lo, toBe 2 word = [hi, lo] ∧ fromBe [hi, lo] = word := by
    refine ⟨_, _, rfl, ?_⟩
    have hround := fromBe_toBe 2 word
    rwa [Nat.mod_eq_of_lt (by omega)] at hround
  obtain ⟨hi, lo, hbytes, hvalue⟩ := hpair
  have hzero : fromBe [0, 0] = 0 := by decide
  rw [hbytes, List.append_assoc, List.append_assoc, beWords_append heven, beWords_append heven]
  simp only [List.cons_append, List.nil_append, beWords, List.sum_append, List.sum_cons, hvalue,
    hzero]
  omega

/-- The complement of the sum, stored in a field that was zero, makes the sum all ones. -/
theorem internetSum_of_checksum {front back : List UInt8} (heven : Even front.length) {x : ℕ}
    (hx : Reduces 0xffff x (beWords (front ++ [0, 0] ++ back)).sum) :
    internetSum (front ++ toBe 2 (0xffff - x) ++ back) = 0xffff := by
  have hfield : (beWords (front ++ toBe 2 (0xffff - x) ++ back)).sum =
      (beWords (front ++ [0, 0] ++ back)).sum + (0xffff - x) :=
    sum_beWords_field heven (Nat.sub_le _ _)
  refine (reduces_internetSum _).eq_of_dvd ?_ ?_
  · rw [hfield]
    apply (Nat.modEq_zero_iff_dvd).mp
    have hle := hx.le
    calc (beWords (front ++ [0, 0] ++ back)).sum + (0xffff - x)
        ≡ x + (0xffff - x) [MOD 0xffff] := hx.modEq.symm.add_right _
      _ = 0xffff := by omega
      _ ≡ 0 [MOD 0xffff] := by decide
  · rw [hfield]
    intro hsum
    obtain ⟨hzero, hcomplement⟩ := Nat.add_eq_zero_iff.mp hsum
    rw [hx.zero_iff.mpr hzero] at hcomplement
    exact absurd hcomplement (by decide)

/-- The same, for a field at an even offset. -/
theorem internetSum_overwrite {bytes : List UInt8} {off x : ℕ} (heven : Even off)
    (hin : off + 2 ≤ bytes.length) (hfield : bytesAt bytes off 2 = [0, 0])
    (hx : Reduces 0xffff x (beWords bytes).sum) :
    internetSum (overwrite bytes off (toBe 2 (0xffff - x))) = 0xffff := by
  have hfront : Even (bytes.take off).length := by
    rwa [List.length_take, min_eq_left (by omega)]
  have hsplit : bytes.take off ++ [0, 0] ++ bytes.drop (off + 2) = bytes := by
    rw [← hfield, bytesAt, ← List.take_add, List.take_append_drop]
  rw [overwrite, length_toBe]
  rw [← hsplit] at hx
  exact internetSum_of_checksum hfront hx

end Hyperion.Lib
