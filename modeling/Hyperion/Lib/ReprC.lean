import Hyperion.Lib.Memory

/-!
# The layout of a C structure

The fields of a structure of integers, in the order of their declaration.  Each one
is stored at the next multiple of its alignment, which is its width, and the bytes
skipped on the way are left to whoever wrote the structure.  A structure inside
another one, or an array, stands here for the fields it is made of.

Two declarations of a structure agree on every field if their widths are the same:
what is written through one of them is read through the other.
-/

namespace Hyperion.Lib.ReprC

/-- An integer of `width` bytes. -/
structure Field where
  width : ℕ
  value : ℕ
  width_pos : 0 < width
  value_lt : value < 256 ^ width

def u32 (value : UInt32) : Field := ⟨4, value.toNat, by decide, value.toNat_lt⟩

def u64 (value : UInt64) : Field := ⟨8, value.toNat, by decide, value.toNat_lt⟩

/-- The first multiple of `align` from `offset` on. -/
def alignUp (offset align : ℕ) : ℕ := (offset + (align - 1)) / align * align

theorem le_alignUp (offset : ℕ) {align : ℕ} (hpos : 0 < align) : offset ≤ alignUp offset align := by
  have hmod := Nat.mod_lt (offset + (align - 1)) hpos
  have hsplit := Nat.div_add_mod' (offset + (align - 1)) align
  rw [alignUp]
  omega

/-- The bytes of some fields, the first one at `offset` or behind it; `pad` fills the
gaps. -/
def encode (pad : ℕ → UInt8) : ℕ → List Field → List UInt8
  | _, [] => []
  | offset, field :: fields =>
    (List.range' offset (alignUp offset field.width - offset)).map pad ++
      (toLe field.width field.value ++
        encode pad (alignUp offset field.width + field.width) fields)

/-- The integers of the given widths in a structure at `addr`. -/
def decode (mem : Memory) (addr : ℕ) : ℕ → List ℕ → List ℕ
  | _, [] => []
  | offset, width :: widths =>
    mem.load (addr + alignUp offset width) width ::
      decode mem addr (alignUp offset width + width) widths

/-- What was written is read, whatever is in the gaps. -/
theorem decode_encode {pad : ℕ → UInt8} {mem : Memory} {addr : ℕ} (fields : List Field) :
    ∀ offset, mem.Holds (addr + offset) (encode pad offset fields) →
      decode mem addr offset (fields.map Field.width) = fields.map Field.value := by
  induction fields with
  | nil =>
    intro offset _
    rfl
  | cons field fields ih =>
    intro offset hholds
    have hle := le_alignUp offset field.width_pos
    rw [encode, Memory.holds_append, Memory.holds_append, length_toLe, List.length_map,
      List.length_range'] at hholds
    obtain ⟨_, hvalue, hrest⟩ := hholds
    have haddr : addr + offset + (alignUp offset field.width - offset) =
        addr + alignUp offset field.width := by omega
    rw [haddr] at hvalue hrest
    rw [List.map_cons, decode, hvalue.load_toLe field.value_lt, List.map_cons,
      ih _ (by rw [← Nat.add_assoc]; exact hrest)]

end Hyperion.Lib.ReprC
