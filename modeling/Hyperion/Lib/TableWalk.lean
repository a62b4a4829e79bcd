import Hyperion.Lib.Memory

/-!
# Translation table walks

Stage 1 translation of VMSAv8-64 with a granule of 4 KiB.  A table has 512 descriptors of eight
bytes.  At each level nine bits of the virtual address select the descriptor, which is invalid,
points to a table of the next level, or describes the memory that is mapped: a page at the last
level, a block above it.  A walk that meets an invalid descriptor, or memory without the access
flag, ends in a fault.
-/

namespace Hyperion.Lib.TableWalk

/-- What a virtual address is translated to. -/
structure Mapping where
  address : ℕ
  attrIndex : ℕ
  deriving DecidableEq, Repr

/-- The field of `width` bits at bit `low`. -/
def field (descriptor : UInt64) (low width : ℕ) : ℕ := descriptor.toNat / 2 ^ low % 2 ^ width

/-- The memory that a descriptor describes, in units of `2 ^ shift` bytes. -/
def leaf (descriptor : UInt64) (shift va : ℕ) : Option Mapping :=
  if field descriptor 10 1 = 0 then none
  else some ⟨field descriptor shift (48 - shift) * 2 ^ shift + va % 2 ^ shift, field descriptor 2 3⟩

/-- The walk from a table with `levels` levels below it; nothing is a fault. -/
def walk (mem : Memory) : ℕ → ℕ → ℕ → Option Mapping
  | 0, table, va =>
    let descriptor := mem.load64 (table + 8 * (va / 2 ^ 12 % 512))
    if field descriptor 0 2 = 3 then leaf descriptor 12 va else none
  | levels + 1, table, va =>
    let shift := 12 + 9 * (levels + 1)
    let descriptor := mem.load64 (table + 8 * (va / 2 ^ shift % 512))
    if field descriptor 0 1 = 0 then none
    else if field descriptor 1 1 = 1 then walk mem levels (field descriptor 12 36 * 2 ^ 12) va
    else leaf descriptor shift va

section Levels

variable {mem : Memory} {levels table va : ℕ} {descriptor : UInt64}
  (hload : mem.load64 (table + 8 * (va / 2 ^ (12 + 9 * (levels + 1)) % 512)) = descriptor)

include hload

theorem walk_of_invalid (hinvalid : field descriptor 0 1 = 0) :
    walk mem (levels + 1) table va = none := by
  rw [walk, hload]
  exact if_pos hinvalid

theorem walk_of_table (hvalid : field descriptor 0 1 = 1) (htable : field descriptor 1 1 = 1) :
    walk mem (levels + 1) table va = walk mem levels (field descriptor 12 36 * 2 ^ 12) va := by
  rw [walk, hload]
  refine (if_neg ?_).trans (if_pos htable)
  omega

theorem walk_of_block (hvalid : field descriptor 0 1 = 1) (hblock : field descriptor 1 1 = 0) :
    walk mem (levels + 1) table va = leaf descriptor (12 + 9 * (levels + 1)) va := by
  rw [walk, hload]
  refine (if_neg ?_).trans (if_neg ?_)
  · omega
  · omega

end Levels

end Hyperion.Lib.TableWalk
