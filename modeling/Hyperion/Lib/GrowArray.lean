import Hyperion.Lib.Bytes

/-!
# Arrays that grow

A `GrowArray` has a value at every index and a length, with the same blank value at every index
behind its length.  A write puts values anywhere; if it ends behind the length the array grows
to its end, and what lies between the old length and the start of the write is blank.

A list is the array of its elements (`GrowArray.ofList`), and splicing bytes into a buffer is a
write to the array.
-/

namespace Hyperion.Lib

variable {α : Type*} {blank : α}

@[ext]
structure GrowArray (α : Type*) (blank : α) where
  len : ℕ
  get : ℕ → α
  blank_of_le : ∀ i, len ≤ i → get i = blank

namespace GrowArray

/-- The elements of a list. -/
def ofList (xs : List α) : GrowArray α blank where
  len := xs.length
  get i := xs.getD i blank
  blank_of_le _ hi := List.getD_eq_default xs _ hi

/-- Write `bs` from `off` on. -/
def write (a : GrowArray α blank) (off : ℕ) (bs : List α) : GrowArray α blank where
  len := max a.len (off + bs.length)
  get i := if off ≤ i ∧ i < off + bs.length then bs.getD (i - off) blank else a.get i
  blank_of_le i hi := by
    rw [if_neg (by omega)]
    exact a.blank_of_le i (by omega)

/-- The `k` values from `off` on, or as many as there are. -/
def read (a : GrowArray α blank) (off k : ℕ) : List α :=
  (List.range (min k (a.len - off))).map fun i => a.get (off + i)

@[simp] theorem len_write (a : GrowArray α blank) (off : ℕ) (bs : List α) :
    (a.write off bs).len = max a.len (off + bs.length) := rfl

@[simp] theorem length_read (a : GrowArray α blank) (off k : ℕ) :
    (a.read off k).length = min k (a.len - off) := by
  simp [read]

theorem ofList_splice (v buf : List UInt8) (off : ℕ) :
    (ofList (splice v off buf) : GrowArray UInt8 0) = (ofList v).write off buf := by
  apply GrowArray.ext
  · exact length_splice v buf off
  · funext i
    exact getD_splice v buf off i

theorem read_ofList (xs : List α) (off k : ℕ) :
    (ofList xs : GrowArray α blank).read off k = (xs.drop off).take (min k (xs.length - off)) := by
  apply List.ext_getElem
  · simp [ofList]
  · intro i hleft hright
    have hi : off + i < xs.length := by
      simp [ofList] at hleft
      omega
    simp [read, ofList, hi]

end GrowArray

end Hyperion.Lib
