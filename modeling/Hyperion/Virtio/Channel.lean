import Hyperion.Lib.Ring
import Hyperion.Virtio.Queue

/-!
# One direction of a virtqueue

The two rings of a queue are the same thing used in opposite directions: a buffer
with an index field and `size` slots of `width` bytes, a producer that writes the
slot of the next entry and then bumps the index, and a consumer with a cursor of
its own.  `Channel` relates such a buffer to the unbounded lists of the entries
produced and consumed.  The index and the cursor are the lengths of these lists
modulo 2^16, and the slots hold the entries in between, with at most one more
that is written and not yet published.  The three things that happen to a channel
are `Channel.write`, `Channel.publish` and `Channel.take`.
-/

namespace Hyperion.Virtio

open Hyperion.Lib Virtqueue

/-! ## Free-running indices -/

theorem ofNat_add_one (n : ℕ) : UInt16.ofNat n + 1 = UInt16.ofNat (n + 1) := by
  rw [UInt16.ofNat_add]
  rfl

theorem ofNat_eq_ofNat_iff {a b : ℕ} (hle : a ≤ b) (hnear : b < a + 2 ^ 16) :
    UInt16.ofNat a = UInt16.ofNat b ↔ a = b := by
  constructor
  · intro heq
    have hmod : a % 2 ^ 16 = b % 2 ^ 16 := by simpa using congrArg UInt16.toNat heq
    have hdvd : 2 ^ 16 ∣ b - a := (Nat.modEq_iff_dvd' hle).mp hmod
    by_contra hne
    have := Nat.le_of_dvd (by omega) hdvd
    omega
  · intro heq
    rw [heq]

/-- Masking a 16-bit index gives the slot of the entry it counts. -/
theorem mask_eq_mod {size : UInt16} (hsize : size.toNat.isPowerOfTwo) (n : ℕ) :
    (UInt16.ofNat n).toNat &&& (size.toNat - 1) = n % size.toNat := by
  obtain ⟨k, hk⟩ := hsize
  have hlt : 2 ^ k < 2 ^ 16 := hk ▸ size.toNat_lt
  have hdvd : 2 ^ k ∣ 2 ^ 16 :=
    Nat.pow_dvd_pow 2 (Nat.pow_lt_pow_iff_right (by norm_num) |>.mp hlt).le
  rw [hk, Nat.and_two_pow_sub_one_eq_mod, UInt16.toNat_ofNat', Nat.mod_mod_of_dvd n hdvd]

/-! ## Slots -/

/-- Slot `k` of a ring whose entries are `width` bytes contains `bytes`. -/
def SlotHolds (width : ℕ) (buf : List UInt8) (k : ℕ) (bytes : List UInt8) : Prop :=
  bytesAt buf (4 + k * width) width = bytes

/-- The index field of a ring contains `n` modulo 2^16. -/
def IdxHolds (buf : List UInt8) (n : ℕ) : Prop :=
  bytesAt buf 2 2 = toLe 2 (UInt16.ofNat n).toNat

theorem ofNat_fromLe_toLe_two (x : UInt16) : UInt16.ofNat (fromLe (toLe 2 x.toNat)) = x := by
  have hlt : x.toNat < 256 ^ 2 := x.toNat_lt
  rw [fromLe_toLe, Nat.mod_eq_of_lt hlt, UInt16.ofNat_toNat]

theorem ofNat_fromLe_toLe_four (x : UInt32) : UInt32.ofNat (fromLe (toLe 4 x.toNat)) = x := by
  have hlt : x.toNat < 256 ^ 4 := x.toNat_lt
  rw [fromLe_toLe, Nat.mod_eq_of_lt hlt, UInt32.ofNat_toNat]

theorem readU16_of_bytesAt {buf : List UInt8} {off : ℕ} {x : UInt16} (hle : off + 2 ≤ buf.length)
    (hseg : bytesAt buf off 2 = toLe 2 x.toNat) : readU16 buf off = .ok x := by
  rw [readU16, readBytes_of_le hle, hseg]
  exact congrArg Except.ok (ofNat_fromLe_toLe_two x)

theorem readU32_of_bytesAt {buf : List UInt8} {off : ℕ} {x : UInt32} (hle : off + 4 ≤ buf.length)
    (hseg : bytesAt buf off 4 = toLe 4 x.toNat) : readU32 buf off = .ok x := by
  rw [readU32, readBytes_of_le hle, hseg]
  exact congrArg Except.ok (ofNat_fromLe_toLe_four x)

section Slot

variable {width k : ℕ} {buf bytes : List UInt8}

section

variable (hle : 4 + k * width + bytes.length ≤ buf.length)

include hle

theorem slotHolds_overwrite_self (hwidth : bytes.length = width) :
    SlotHolds width (overwrite buf (4 + k * width) bytes) k bytes := by
  have hself := bytesAt_overwrite_self hle
  rwa [hwidth] at hself

theorem slotHolds_overwrite_of_ne {j : ℕ} {other : List UInt8} (hwidth : bytes.length = width)
    (hne : j ≠ k) (hother : SlotHolds width buf j other) :
    SlotHolds width (overwrite buf (4 + k * width) bytes) j other := by
  have hdisj : 4 + j * width + width ≤ 4 + k * width ∨
      4 + k * width + bytes.length ≤ 4 + j * width := by
    rcases Nat.lt_or_gt_of_ne hne with hlt | hgt
    · have := Nat.mul_le_mul_right width (Nat.succ_le_of_lt hlt)
      rw [Nat.succ_mul] at this
      omega
    · have := Nat.mul_le_mul_right width (Nat.succ_le_of_lt hgt)
      rw [Nat.succ_mul] at this
      omega
  rw [SlotHolds, bytesAt_overwrite_of_disjoint hle hdisj]
  exact hother

/-- A slot write does not touch the index field. -/
theorem idxHolds_overwrite_slot {n : ℕ} (hidx : IdxHolds buf n) :
    IdxHolds (overwrite buf (4 + k * width) bytes) n := by
  rw [IdxHolds, bytesAt_overwrite_of_disjoint hle (.inl (by omega))]
  exact hidx

end

/-- Writing the index field does not touch the slots. -/
theorem slotHolds_overwrite_idx {n : ℕ} (hlength : 4 ≤ buf.length)
    (hslot : SlotHolds width buf k bytes) :
    SlotHolds width (overwrite buf 2 (toLe 2 n)) k bytes := by
  have hle : 2 + (toLe 2 n).length ≤ buf.length := by simpa using hlength
  rw [SlotHolds, bytesAt_overwrite_of_disjoint hle (.inr (by simp))]
  exact hslot

theorem idxHolds_overwrite_idx (n : ℕ) (hlength : 4 ≤ buf.length) :
    IdxHolds (overwrite buf 2 (toLe 2 (UInt16.ofNat n).toNat)) n := by
  have hle : 2 + (toLe 2 (UInt16.ofNat n).toNat).length ≤ buf.length := by simpa using hlength
  have hself := bytesAt_overwrite_self hle
  rwa [length_toLe] at hself

end Slot

/-! ## Channels -/

/-- `buf` carries the entries of `produced` after those of `consumed`.  The entry
`pending` is in its slot and not yet covered by the index. -/
structure Channel {α : Type} (size : UInt16) (width : ℕ) (encode : α → List UInt8)
    (buf : List UInt8) (cursor : UInt16) (produced consumed : List α) (pending : Option α) :
    Prop where
  length_eq : buf.length = 4 + width * size.toNat + 2
  idx : IdxHolds buf produced.length
  slots : Window size.toNat (fun k a => SlotHolds width buf k (encode a))
    (produced ++ pending.toList) consumed.length
  cursor_eq : cursor = UInt16.ofNat consumed.length
  consumed_prefix : consumed <+: produced

namespace Channel

variable {α : Type} {size : UInt16} {width : ℕ} {encode : α → List UInt8} {buf : List UInt8}
  {cursor : UInt16} {produced consumed : List α} {pending : Option α} {a : α}

section

variable (ch : Channel size width encode buf cursor produced consumed pending)

include ch

theorem readIdx :
    readU16 buf 2 = .ok (UInt16.ofNat produced.length) :=
  readU16_of_bytesAt (by rw [ch.length_eq]; omega) ch.idx

theorem slot_le {k : ℕ} (hk : k < size.toNat) : 4 + k * width + width ≤ buf.length := by
  have hle := Nat.mul_le_mul_right width (Nat.succ_le_of_lt hk)
  rw [Nat.succ_mul] at hle
  rw [ch.length_eq, Nat.mul_comm width]
  omega

/-- The consumer has caught up with the index. -/
theorem cursor_eq_idx_iff (hnear : produced.length < consumed.length + 2 ^ 16) :
    cursor = UInt16.ofNat produced.length ↔ consumed = produced := by
  rw [ch.cursor_eq, ofNat_eq_ofNat_iff ch.consumed_prefix.length_le hnear]
  constructor
  · exact ch.consumed_prefix.eq_of_length
  · exact congrArg List.length

end

/-- The producer writes the slot of the next entry, which no longer holds an entry
the consumer has to read. -/
theorem write (ch : Channel size width encode buf cursor produced consumed none)
    (hwidth : (encode a).length = width) (hpos : 0 < size.toNat)
    (hroom : produced.length < consumed.length + size.toNat) :
    Channel size width encode
      (overwrite buf (4 + produced.length % size.toNat * width) (encode a)) cursor produced consumed
      (some a) := by
  have hle : 4 + produced.length % size.toNat * width + (encode a).length ≤ buf.length := by
    rw [hwidth]
    exact ch.slot_le (Nat.mod_lt _ hpos)
  have hslots := ch.slots
  rw [Option.toList_none, List.append_nil] at hslots
  constructor
  case length_eq => rw [length_overwrite hle, ch.length_eq]
  case idx => exact idxHolds_overwrite_slot hle ch.idx
  case slots =>
    refine hslots.push hroom (slotHolds_overwrite_self hle hwidth) ?_
    intro k b _ hne hb
    exact slotHolds_overwrite_of_ne hle hwidth hne hb
  case cursor_eq => exact ch.cursor_eq
  case consumed_prefix => exact ch.consumed_prefix

/-- The producer bumps the index over the entry it wrote. -/
theorem publish (ch : Channel size width encode buf cursor produced consumed (some a))
    (hpos : 0 < size.toNat) :
    Channel size width encode
      (overwrite buf 2 (toLe 2 (UInt16.ofNat (produced.length + 1)).toNat)) cursor
      (produced ++ [a]) consumed none := by
  have hlength : 4 ≤ buf.length := by
    rw [ch.length_eq]
    omega
  constructor
  case length_eq => rw [length_overwrite (by simpa using hlength), ch.length_eq]
  case idx =>
    rw [List.length_append]
    exact idxHolds_overwrite_idx _ hlength
  case slots =>
    rw [Option.toList_none, List.append_nil]
    exact ch.slots.mono hpos fun k b _ hb => slotHolds_overwrite_idx hlength hb
  case cursor_eq => exact ch.cursor_eq
  case consumed_prefix => exact ch.consumed_prefix.trans (List.prefix_append _ _)

/-- The consumer reads the entry at its cursor. -/
theorem take (ch : Channel size width encode buf cursor produced consumed pending)
    (hmore : consumed ≠ produced) :
    ∃ a, SlotHolds width buf (consumed.length % size.toNat) (encode a) ∧
      Channel size width encode buf (cursor + 1) produced (consumed ++ [a]) pending := by
  obtain ⟨rest, hrest⟩ := ch.consumed_prefix
  cases rest with
  | nil => exact (hmore (by simpa using hrest)).elim
  | cons a rest =>
    have hget : (produced ++ pending.toList)[consumed.length]? = some a := by
      rw [← hrest]
      simp
    refine ⟨a, ch.slots _ a (le_refl _) hget, ?_⟩
    constructor
    case length_eq => exact ch.length_eq
    case idx => exact ch.idx
    case slots => exact ch.slots.advance (by simp)
    case cursor_eq =>
      rw [ch.cursor_eq, ofNat_add_one, List.length_append]
      rfl
    case consumed_prefix => exact ⟨rest, by rw [← hrest]; simp⟩

end Channel

/-! ## What a consumer has still to read -/

/-- The entries of a ring between a cursor and the index field. -/
def ringEntries {α : Type} (size : UInt16) (width : ℕ) (decode : List UInt8 → α)
    (buf : List UInt8) (cursor : UInt16) : List α :=
  let idx := UInt16.ofNat (fromLe (bytesAt buf 2 2))
  (List.range (idx - cursor).toNat).map fun k =>
    decode (bytesAt buf
      (4 + ((cursor + UInt16.ofNat k).toNat &&& (size.toNat - 1)) * width) width)

theorem toNat_ofNat_sub_ofNat {a b : ℕ} (hle : a ≤ b) (hnear : b < a + 2 ^ 16) :
    (UInt16.ofNat b - UInt16.ofNat a).toNat = b - a := by
  obtain ⟨n, rfl⟩ := Nat.exists_eq_add_of_le hle
  have hsub : UInt16.ofNat (a + n) - UInt16.ofNat a = UInt16.ofNat n := by
    rw [UInt16.ofNat_add, UInt16.add_comm, UInt16.add_sub_cancel]
  rw [hsub, UInt16.toNat_ofNat', Nat.mod_eq_of_lt (by omega), Nat.add_sub_cancel_left]

/-- They are the entries produced and not consumed. -/
theorem Channel.ringEntries_eq {α : Type} {size : UInt16} {width : ℕ} {encode : α → List UInt8}
    {decode : List UInt8 → α} {buf : List UInt8} {cursor : UInt16} {produced consumed : List α}
    {pending : Option α} (hdecode : ∀ a, decode (encode a) = a) (hpow : size.toNat.isPowerOfTwo)
    (hnear : produced.length < consumed.length + 2 ^ 16)
    (ch : Channel size width encode buf cursor produced consumed pending) :
    ringEntries size width decode buf cursor = produced.drop consumed.length := by
  have hle := ch.consumed_prefix.length_le
  have hidx : UInt16.ofNat (fromLe (bytesAt buf 2 2)) = UInt16.ofNat produced.length := by
    rw [ch.idx, ofNat_fromLe_toLe_two]
  rw [ringEntries, hidx, ch.cursor_eq, toNat_ofNat_sub_ofNat hle hnear]
  apply List.ext_getElem
  · simp
  · intro k hk hk'
    rw [List.length_drop] at hk'
    have hget : (produced ++ pending.toList)[consumed.length + k]? =
        some (produced.drop consumed.length)[k] := by
      rw [List.getElem?_append_left (by omega), List.getElem_drop]
      exact List.getElem?_eq_getElem (by omega)
    have hslot := ch.slots _ _ (Nat.le_add_right _ _) hget
    rw [List.getElem_map, List.getElem_range, ← UInt16.ofNat_add, mask_eq_mod hpow, hslot, hdecode]

end Hyperion.Virtio
