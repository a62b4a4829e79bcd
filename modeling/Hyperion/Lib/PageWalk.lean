import Hyperion.Lib.TableWalk

/-!
# Page walks in long mode

Four-level paging of x86-64.  A table has 512 entries of eight bytes; nine bits of the linear
address select the entry at each level.  An entry is not present, or points to the next table, or
maps memory: a page of 4 KiB at the last level, one of 2 MiB above it, and one of 1 GiB above that
on a processor that has such pages.  Reserved bits that are set, and large pages where there are
none, end the walk in a fault.
-/

namespace Hyperion.Lib.PageWalk

open TableWalk (field)

/-- What a linear address is translated to. -/
structure Mapping where
  address : ℕ
  writable : Bool
  user : Bool
  deriving DecidableEq, Repr

/-- The rights of a table hold for everything below it. -/
def Mapping.below (entry : UInt64) (mapping : Mapping) : Mapping :=
  { mapping with
    writable := mapping.writable && field entry 1 1 == 1
    user := mapping.user && field entry 2 1 == 1 }

/-- The memory that an entry maps, in units of `2 ^ shift` bytes.  Bit 12 of a large page is not
part of its address; the bits from there to the address are reserved. -/
def leaf (entry : UInt64) (shift va : ℕ) : Option Mapping :=
  if field entry 13 (shift - 13) = 0 then
    some ⟨field entry shift (52 - shift) * 2 ^ shift + va % 2 ^ shift,
      field entry 1 1 == 1, field entry 2 1 == 1⟩
  else none

/-- The levels that may have large pages. -/
def largePages (gibPages : Bool) : ℕ → Bool
  | 1 => true
  | 2 => gibPages
  | _ => false

/-- The walk from a table with `levels` levels below it; nothing is a fault. -/
def walk (gibPages : Bool) (mem : Memory) : ℕ → ℕ → ℕ → Option Mapping
  | 0, table, va =>
    let entry := mem.load64 (table + 8 * (va / 2 ^ 12 % 512))
    if field entry 0 1 = 0 then none else leaf entry 12 va
  | levels + 1, table, va =>
    let shift := 12 + 9 * (levels + 1)
    let entry := mem.load64 (table + 8 * (va / 2 ^ shift % 512))
    if field entry 0 1 = 0 then none
    else if field entry 7 1 = 0 then
      (walk gibPages mem levels (field entry 12 40 * 2 ^ 12) va).map (Mapping.below entry)
    else if largePages gibPages (levels + 1) then leaf entry shift va
    else none

/-- The upper 17 bits of an address are the same. -/
def Canonical (va : ℕ) : Prop := va / 2 ^ 47 = 0 ∨ va / 2 ^ 47 = 2 ^ 17 - 1

instance (va : ℕ) : Decidable (Canonical va) := inferInstanceAs (Decidable (_ ∨ _))

def translate (gibPages : Bool) (mem : Memory) (cr3 va : ℕ) : Option Mapping :=
  if Canonical va then walk gibPages mem 3 (cr3 / 2 ^ 12 * 2 ^ 12) va else none

section Levels

variable {gibPages : Bool} {mem : Memory} {levels table va : ℕ} {entry : UInt64}
  (hload : mem.load64 (table + 8 * (va / 2 ^ (12 + 9 * (levels + 1)) % 512)) = entry)

include hload

theorem walk_of_absent (habsent : field entry 0 1 = 0) :
    walk gibPages mem (levels + 1) table va = none := by
  rw [walk, hload]
  exact if_pos habsent

theorem walk_of_table (hpresent : field entry 0 1 = 1) (htable : field entry 7 1 = 0) :
    walk gibPages mem (levels + 1) table va =
      (walk gibPages mem levels (field entry 12 40 * 2 ^ 12) va).map (Mapping.below entry) := by
  rw [walk, hload]
  exact (if_neg (by omega)).trans (if_pos htable)

theorem walk_of_large (hpresent : field entry 0 1 = 1) (hlarge : field entry 7 1 = 1) :
    walk gibPages mem (levels + 1) table va =
      if largePages gibPages (levels + 1) then leaf entry (12 + 9 * (levels + 1)) va
      else none := by
  rw [walk, hload]
  exact (if_neg (by omega)).trans (if_neg (by omega))

end Levels

end Hyperion.Lib.PageWalk
