import Hyperion.Lib.Checked

/-!
# Integers as bytes

A list of bytes read as an integer, least significant byte first, is its value
in base 256; `toLe` writes that many bytes of an integer.  Big-endian reading and
writing are the same after reversing the list.

`readBytes` and `writeBytes` access a buffer one byte at a time and fault outside
it.  Inside it they are `bytesAt` and `overwrite`, for which what a write changes
and what it leaves alone are equations.
-/

namespace Hyperion.Lib

/-- The integer whose little-endian bytes are `bytes`. -/
def fromLe (bytes : List UInt8) : ℕ := Nat.ofDigits 256 (bytes.map UInt8.toNat)

/-- The integer whose big-endian bytes are `bytes`. -/
def fromBe (bytes : List UInt8) : ℕ := fromLe bytes.reverse

/-- The lowest `width` bytes of `value`, least significant first. -/
def toLe : ℕ → ℕ → List UInt8
  | 0, _ => []
  | width + 1, value => UInt8.ofNat value :: toLe width (value / 256)

/-- The lowest `width` bytes of `value`, most significant first. -/
def toBe (width value : ℕ) : List UInt8 := (toLe width value).reverse

@[simp] theorem length_toLe (width value : ℕ) : (toLe width value).length = width := by
  induction width generalizing value with
  | zero => rfl
  | succ width ih => simp [toLe, ih]

@[simp] theorem length_toBe (width value : ℕ) : (toBe width value).length = width := by
  simp [toBe]

theorem fromLe_toLe (width value : ℕ) : fromLe (toLe width value) = value % 256 ^ width := by
  induction width generalizing value with
  | zero => simp [fromLe, toLe, Nat.mod_one]
  | succ width ih =>
    have hrest : Nat.ofDigits 256 ((toLe width (value / 256)).map UInt8.toNat) =
        value / 256 % 256 ^ width := ih (value / 256)
    simp only [fromLe, toLe, List.map_cons, Nat.ofDigits_cons, hrest, UInt8.toNat_ofNat']
    rw [pow_succ' 256 width, Nat.mod_mul]

theorem fromBe_toBe (width value : ℕ) : fromBe (toBe width value) = value % 256 ^ width := by
  rw [fromBe, toBe, List.reverse_reverse, fromLe_toLe]

theorem toLe_fromLe (bytes : List UInt8) : toLe bytes.length (fromLe bytes) = bytes := by
  induction bytes with
  | nil => rfl
  | cons byte bytes ih =>
    have hcons : fromLe (byte :: bytes) = byte.toNat + 256 * fromLe bytes := by
      simp [fromLe, Nat.ofDigits_cons]
    have hbyte := byte.toNat_lt
    rw [List.length_cons, toLe, hcons]
    congr 1
    · apply UInt8.toNat_inj.mp
      rw [UInt8.toNat_ofNat']
      omega
    · rw [show (byte.toNat + 256 * fromLe bytes) / 256 = fromLe bytes by omega, ih]

theorem toBe_fromBe (bytes : List UInt8) : toBe bytes.length (fromBe bytes) = bytes := by
  have hle := toLe_fromLe bytes.reverse
  rw [List.length_reverse] at hle
  rw [toBe, fromBe, hle, List.reverse_reverse]

theorem fromLe_lt (bytes : List UInt8) : fromLe bytes < 256 ^ bytes.length := by
  rw [fromLe, ← List.length_map (f := UInt8.toNat)]
  refine Nat.ofDigits_lt_base_pow_length (by norm_num) ?_
  intro digit hdigit
  obtain ⟨byte, _, rfl⟩ := List.mem_map.mp hdigit
  exact byte.toNat_lt

/-! ## Big-endian numbers -/

theorem fromBe_append (front back : List UInt8) :
    fromBe (front ++ back) = fromBe front * 256 ^ back.length + fromBe back := by
  rw [fromBe, fromBe, fromBe, fromLe, fromLe, fromLe, List.reverse_append, List.map_append,
    Nat.ofDigits_append, List.length_map, List.length_reverse]
  ring

theorem fromBe_lt (bytes : List UInt8) : fromBe bytes < 256 ^ bytes.length := by
  rw [fromBe, ← List.length_reverse]
  exact fromLe_lt bytes.reverse

theorem fromBe_eq_zero {bytes : List UInt8} : fromBe bytes = 0 ↔ ∀ byte ∈ bytes, byte = 0 := by
  induction bytes using List.reverseRecOn with
  | nil => simp [fromBe, fromLe]
  | append_singleton bytes last ih =>
    have hlast : fromBe [last] = last.toNat := by simp [fromBe, fromLe]
    rw [fromBe_append, hlast, List.forall_mem_append, List.forall_mem_singleton, ← ih,
      ← UInt8.toNat_inj]
    simp [Nat.add_eq_zero_iff]

/-- Digits behind a number leave it the same only if all of them are zero. -/
theorem fromBe_append_eq_left (front back : List UInt8) :
    fromBe (front ++ back) = fromBe front ↔ back = [] ∨ ∀ byte ∈ front ++ back, byte = 0 := by
  rw [← fromBe_eq_zero]
  constructor
  · intro hsame
    by_contra hneither
    rw [not_or] at hneither
    obtain ⟨hne, hpos⟩ := hneither
    have hbase : 1 < 256 ^ back.length :=
      Nat.one_lt_pow (List.length_pos_iff.mpr hne).ne' (by norm_num)
    have hfront : 0 < fromBe front := Nat.pos_of_ne_zero (hsame ▸ hpos)
    have hgrows : fromBe front < fromBe front * 256 ^ back.length :=
      lt_mul_of_one_lt_right hfront hbase
    rw [fromBe_append] at hsame
    omega
  · rintro (rfl | hzero)
    · rw [List.append_nil]
    · have hfront : fromBe front = 0 := by
        rw [fromBe_eq_zero] at hzero ⊢
        exact fun byte hbyte => hzero byte (List.mem_append_left _ hbyte)
      rw [hzero, hfront]

/-! ## Buffers -/

/-- `[buf[off], buf[off + 1], …]`, `n` bytes. -/
def readBytes (buf : List UInt8) (off : ℕ) : ℕ → Checked (List UInt8)
  | 0 => pure []
  | n + 1 => do
      let byte ← index buf off
      let bytes ← readBytes buf (off + 1) n
      pure (byte :: bytes)

/-- `buf[off] = bytes[0]; buf[off + 1] = bytes[1]; …`. -/
def writeBytes (buf : List UInt8) (off : ℕ) : List UInt8 → Checked (List UInt8)
  | [] => pure buf
  | byte :: bytes => do
      let buf ← setIndex buf off byte
      writeBytes buf (off + 1) bytes

/-- The `n` bytes at `off`. -/
def bytesAt (buf : List UInt8) (off n : ℕ) : List UInt8 := (buf.drop off).take n

/-- `buf` with `bytes` in place of what was at `off`. -/
def overwrite (buf : List UInt8) (off : ℕ) (bytes : List UInt8) : List UInt8 :=
  buf.take off ++ bytes ++ buf.drop (off + bytes.length)

/-- `bytes` written at `off` into a buffer that grows, with zeros in any gap. -/
def splice (buf : List UInt8) (off : ℕ) (bytes : List UInt8) : List UInt8 :=
  buf.take off ++ List.replicate (off - buf.length) 0 ++ bytes ++ buf.drop (off + bytes.length)

/-- `buf[lo..hi].copy_from_slice(bytes)`. -/
def copyFromSlice (buf : List UInt8) (lo hi : ℕ) (bytes : List UInt8) : Checked (List UInt8) := do
  let target ← slice buf lo hi
  if target.length = bytes.length then pure (overwrite buf lo bytes) else .error .assertFailed

theorem readBytes_of_le {buf : List UInt8} {off n : ℕ} (hle : off + n ≤ buf.length) :
    readBytes buf off n = .ok (bytesAt buf off n) := by
  induction n generalizing off with
  | zero => simp [readBytes, bytesAt, pure, Except.pure]
  | succ n ih =>
    have hlt : off < buf.length := by omega
    rw [readBytes, index_of_lt hlt, ih (by omega), bytesAt, bytesAt,
      List.drop_eq_getElem_cons hlt, List.take_succ_cons]
    rfl

variable {buf bytes : List UInt8}

theorem le_of_readBytes {off n : ℕ} (hpos : 0 < n) (hread : readBytes buf off n = .ok bytes) :
    off + n ≤ buf.length := by
  induction n generalizing off bytes with
  | zero => exact absurd hpos (lt_irrefl 0)
  | succ n ih =>
    obtain ⟨byte, hbyte, hread⟩ := bind_eq_ok.mp hread
    obtain ⟨rest, hrest, _⟩ := bind_eq_ok.mp hread
    have hlt : off < buf.length := (List.getElem?_eq_some_iff.mp (index_eq_ok.mp hbyte)).1
    rcases Nat.eq_zero_or_pos n with rfl | hpos
    · exact hlt
    · have := ih hpos hrest
      omega

theorem writeBytes_of_le {off : ℕ} (hle : off + bytes.length ≤ buf.length) :
    writeBytes buf off bytes = .ok (overwrite buf off bytes) := by
  induction bytes generalizing buf off with
  | nil => simp [writeBytes, overwrite, pure, Except.pure]
  | cons byte bytes ih =>
    rw [List.length_cons] at hle
    have hlt : off < buf.length := by omega
    rw [writeBytes, setIndex_of_lt byte hlt]
    show writeBytes (buf.set off byte) (off + 1) bytes = _
    rw [ih (by simp; omega), overwrite, overwrite, List.drop_set_of_lt (by omega),
      List.take_add_one, List.take_set_of_le (le_refl off)]
    simp [List.getElem?_set_self hlt, Nat.add_assoc, Nat.add_comm 1]

theorem le_of_writeBytes {buf bytes out : List UInt8} {off : ℕ} (hne : bytes ≠ [])
    (hwrite : writeBytes buf off bytes = .ok out) : off + bytes.length ≤ buf.length := by
  induction bytes generalizing buf off with
  | nil => exact absurd rfl hne
  | cons byte bytes ih =>
    obtain ⟨next, hset, hwrite⟩ := bind_eq_ok.mp hwrite
    unfold setIndex at hset
    split at hset
    · rename_i hlt
      cases hset
      rcases eq_or_ne bytes [] with rfl | hne
      · exact hlt
      · have hrest := ih hne hwrite
        rw [List.length_set] at hrest
        rw [List.length_cons]
        omega
    · cases hset

theorem copyFromSlice_of_le {lo : ℕ} (hle : lo + bytes.length ≤ buf.length) :
    copyFromSlice buf lo (lo + bytes.length) bytes = .ok (overwrite buf lo bytes) := by
  simp only [copyFromSlice, slice_of_le (Nat.le_add_right _ _) hle, bind, Except.bind]
  rw [if_pos (by simp; omega)]
  rfl

@[simp] theorem length_overwrite {off : ℕ} (hle : off + bytes.length ≤ buf.length) :
    (overwrite buf off bytes).length = buf.length := by
  simp [overwrite]
  omega

theorem length_bytesAt {buf : List UInt8} {off n : ℕ} (hle : off + n ≤ buf.length) :
    (bytesAt buf off n).length = n := by
  simp [bytesAt]
  omega

theorem length_bytesAt_le (buf : List UInt8) (off n : ℕ) : (bytesAt buf off n).length ≤ n :=
  List.length_take_le _ _

theorem getElem?_eq_head?_bytesAt (buf : List UInt8) (i : ℕ) :
    buf[i]? = (bytesAt buf i 1).head? := by
  rw [bytesAt, List.head?_take, if_neg one_ne_zero, List.head?_drop]

theorem bytesAt_overwrite_self {off : ℕ} (hle : off + bytes.length ≤ buf.length) :
    bytesAt (overwrite buf off bytes) off bytes.length = bytes := by
  have htake : (buf.take off).length = off := by simp; omega
  rw [bytesAt, overwrite, List.append_assoc, List.drop_append_of_le_length (by omega)]
  simp

theorem bytesAt_add (buf : List UInt8) (off m n : ℕ) :
    bytesAt buf off (m + n) = bytesAt buf off m ++ bytesAt buf (off + m) n := by
  rw [bytesAt, bytesAt, bytesAt, List.take_add, List.drop_drop]

theorem bytesAt_split {buf left right : List UInt8} {off m n : ℕ}
    (hseg : bytesAt buf off (m + n) = left ++ right) (hleft : left.length = m) :
    bytesAt buf off m = left ∧ bytesAt buf (off + m) n = right := by
  constructor
  · have htake := congrArg (List.take m) hseg
    rwa [bytesAt, List.take_take, min_eq_left (by omega), ← hleft, List.take_left, hleft] at htake
  · have hdrop := congrArg (List.drop m) hseg
    rwa [bytesAt, List.drop_take, List.drop_drop, Nat.add_sub_cancel_left, ← hleft, List.drop_left,
      hleft] at hdrop

theorem getElem?_overwrite_of_mem {off i : ℕ} (hle : off + bytes.length ≤ buf.length)
    (hlow : off ≤ i) (hhigh : i < off + bytes.length) :
    (overwrite buf off bytes)[i]? = bytes[i - off]? := by
  have hfront : (buf.take off).length = off := by simp; omega
  rw [overwrite, List.append_assoc, List.getElem?_append_right (by omega), hfront,
    List.getElem?_append_left (by omega)]

/-- A write does not change what is read elsewhere. -/
theorem bytesAt_overwrite_of_disjoint {off pos n : ℕ} (hle : off + bytes.length ≤ buf.length)
    (hdisj : pos + n ≤ off ∨ off + bytes.length ≤ pos) :
    bytesAt (overwrite buf off bytes) pos n = bytesAt buf pos n := by
  apply List.ext_getElem?
  intro i
  simp only [bytesAt, overwrite, List.getElem?_take, List.getElem?_drop, List.getElem?_append]
  split
  · rename_i hi
    simp only [List.length_append, List.length_take]
    rcases hdisj with hbefore | hafter
    · rw [if_pos (by omega), if_pos (by omega)]
      simp
      omega
    · rw [if_neg (by omega)]
      congr 1
      omega
  · rfl

/-! ## Buffers that grow -/

theorem length_splice (buf bytes : List UInt8) (off : ℕ) :
    (splice buf off bytes).length = max buf.length (off + bytes.length) := by
  simp only [splice, List.length_append, List.length_take, List.length_replicate, List.length_drop]
  omega

/-- The bytes written, the old ones around them, and zeros behind the old end. -/
theorem getD_splice (buf bytes : List UInt8) (off i : ℕ) :
    (splice buf off bytes).getD i 0 =
      if off ≤ i ∧ i < off + bytes.length then bytes.getD (i - off) 0 else buf.getD i 0 := by
  have hfront : (buf.take off ++ List.replicate (off - buf.length) 0).length = off := by
    simp only [List.length_append, List.length_take, List.length_replicate]
    omega
  have hsplice : splice buf off bytes = (buf.take off ++ List.replicate (off - buf.length) 0) ++
      (bytes ++ buf.drop (off + bytes.length)) := by
    simp only [splice, List.append_assoc]
  rw [hsplice]
  rcases Nat.lt_or_ge i off with hbefore | hafter
  · rw [if_neg (by omega), List.getD_append _ _ _ _ (by omega)]
    rcases Nat.lt_or_ge i buf.length with hold | hgap
    · rw [List.getD_append _ _ _ _ (by simp; omega)]
      simp [List.getD_eq_getElem?_getD, hbefore]
    · rw [List.getD_append_right _ _ _ _ (by simp; omega)]
      rw [List.getD_eq_default buf _ hgap, List.getD_replicate]
      simp; omega
  · rw [List.getD_append_right _ _ _ _ (by omega), hfront]
    rcases Nat.lt_or_ge i (off + bytes.length) with hnew | hold
    · rw [if_pos ⟨hafter, hnew⟩, List.getD_append _ _ _ _ (by omega)]
    · rw [if_neg (by omega), List.getD_append_right _ _ _ _ (by omega)]
      simp only [List.getD_eq_getElem?_getD, List.getElem?_drop]
      congr 2
      omega

/-! ## Several writes -/

/-- `buf` after writing the bytes of every edit at its offset, in order. -/
def overwriteAll (buf : List UInt8) (edits : List (ℕ × List UInt8)) : List UInt8 :=
  edits.foldl (fun buf edit => overwrite buf edit.1 edit.2) buf

/-- Every edit lies inside a buffer of `len` bytes. -/
def Fit (len : ℕ) (edits : List (ℕ × List UInt8)) : Prop :=
  ∀ edit ∈ edits, edit.1 + edit.2.length ≤ len

/-- No edit touches the `n` bytes at `pos`. -/
def Spare (pos n : ℕ) (edits : List (ℕ × List UInt8)) : Prop :=
  ∀ edit ∈ edits, pos + n ≤ edit.1 ∨ edit.1 + edit.2.length ≤ pos

theorem Fit.of_prefix {len : ℕ} {edits before : List (ℕ × List UInt8)} (hfit : Fit len edits)
    (hbefore : before <+: edits) : Fit len before :=
  fun edit hedit => hfit edit (hbefore.subset hedit)

section Edits

variable {buf bytes : List UInt8} {edits before after : List (ℕ × List UInt8)} {off pos n : ℕ}

theorem overwriteAll_append :
    overwriteAll buf (before ++ after) = overwriteAll (overwriteAll buf before) after :=
  List.foldl_append

section

variable (hfit : Fit buf.length edits)

include hfit

theorem length_overwriteAll :
    (overwriteAll buf edits).length = buf.length := by
  induction edits using List.reverseRecOn with
  | nil => rfl
  | append_singleton edits edit ih =>
    have hlength := ih fun e he => hfit e (by simp [he])
    rw [overwriteAll_append]
    refine (length_overwrite ?_).trans hlength
    rw [hlength]
    exact hfit edit (by simp)

theorem bytesAt_overwriteAll (hspare : Spare pos n edits) :
    bytesAt (overwriteAll buf edits) pos n = bytesAt buf pos n := by
  induction edits using List.reverseRecOn with
  | nil => rfl
  | append_singleton edits edit ih =>
    have hfront : Fit buf.length edits := fun e he => hfit e (by simp [he])
    rw [← ih hfront fun e he => hspare e (by simp [he]), overwriteAll_append]
    refine bytesAt_overwrite_of_disjoint ?_ (hspare edit (by simp))
    exact (hfit edit (by simp)).trans_eq (length_overwriteAll hfront).symm

/-- What the edit number `k` wrote is there at the end if no later edit touches it. -/
theorem bytesAt_edit {k : ℕ} (hedit : edits[k]? = some (off, bytes))
    (hspare : Spare off bytes.length (edits.drop (k + 1))) :
    bytesAt (overwriteAll buf edits) off bytes.length = bytes := by
  obtain ⟨hk, hget⟩ := List.getElem?_eq_some_iff.mp hedit
  have hsplit : edits.take k ++ [(off, bytes)] ++ edits.drop (k + 1) = edits := by
    rw [← hget, List.take_concat_get' edits k hk, List.take_append_drop]
  have hbefore : Fit buf.length (edits.take k) := hfit.of_prefix (List.take_prefix k edits)
  have hinside : off + bytes.length ≤ (overwriteAll buf (edits.take k)).length := by
    rw [length_overwriteAll hbefore]
    exact hfit (off, bytes) (List.mem_of_getElem? hedit)
  have hafter : Fit (overwrite (overwriteAll buf (edits.take k)) off bytes).length
      (edits.drop (k + 1)) := by
    rw [length_overwrite hinside, length_overwriteAll hbefore]
    exact fun e he => hfit e (List.mem_of_mem_drop he)
  rw [← hsplit, overwriteAll_append, overwriteAll_append]
  exact (bytesAt_overwriteAll hafter hspare).trans (bytesAt_overwrite_self hinside)

theorem writeBytes_overwriteAll (hle : off + bytes.length ≤ buf.length) :
    writeBytes (overwriteAll buf edits) off bytes =
      .ok (overwriteAll buf (edits ++ [(off, bytes)])) := by
  rw [writeBytes_of_le (by rwa [length_overwriteAll hfit]), overwriteAll_append]
  rfl

theorem copyFromSlice_overwriteAll {stop : ℕ} (hstop : off + bytes.length = stop)
    (hle : stop ≤ buf.length) :
    copyFromSlice (overwriteAll buf edits) off stop bytes =
      .ok (overwriteAll buf (edits ++ [(off, bytes)])) := by
  subst hstop
  rw [copyFromSlice_of_le (by rwa [length_overwriteAll hfit]), overwriteAll_append]
  rfl

end

end Edits

end Hyperion.Lib
