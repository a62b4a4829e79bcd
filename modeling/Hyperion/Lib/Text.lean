import Mathlib

/-!
# Strings and their bytes

A borrowed string is a view of bytes that were checked to be UTF-8.  `utf8` gives
the bytes of a string and `fromUtf8` is the check; the byte length of a string is
its `String.utf8ByteSize`.  Comparisons with a pattern are made on characters, and
so is splitting at a separator: `split` cuts at every one of them, `rsplitOnce` at
the last.
-/

namespace Hyperion.Lib

/-- The bytes of a string. -/
def utf8 (s : String) : List UInt8 := s.toByteArray.data.toList

/-- `core::str::from_utf8`. -/
def fromUtf8 (bytes : List UInt8) : Option String := String.fromUTF8? ⟨bytes.toArray⟩

/-- `s.starts_with(pattern)`. -/
def startsWith (s pattern : String) : Bool := pattern.toList.isPrefixOf s.toList

/-- `s.contains(pattern)`. -/
def contains (s pattern : String) : Bool :=
  s.toList.tails.any fun tail => pattern.toList.isPrefixOf tail

/-- `s.strip_prefix(c)`. -/
def stripPrefix (c : Char) (s : String) : Option String :=
  match s.toList with
  | [] => none
  | first :: rest => if first = c then some (String.ofList rest) else none

/-- `s.split(sep)`. -/
def split (sep : Char) (s : String) : List String := (s.toList.splitOn sep).map String.ofList

/-- `s.rsplit_once(sep)`: what is before and after the last separator. -/
def rsplitOnce (sep : Char) (s : String) : Option (String × String) :=
  let upTo := s.toList.rdropWhile (· ≠ sep)
  if upTo = [] then none
  else some (String.ofList upTo.dropLast, String.ofList (s.toList.rtakeWhile (· ≠ sep)))

@[simp] theorem length_utf8 (s : String) : (utf8 s).length = s.utf8ByteSize := rfl

theorem fromUtf8_utf8 (s : String) : fromUtf8 (utf8 s) = some s := by
  have hbytes : (⟨(utf8 s).toArray⟩ : ByteArray) = s.toByteArray := rfl
  rw [fromUtf8, hbytes, String.fromUTF8?, dif_pos s.isValidUTF8]
  rfl

theorem utf8ByteSize_of_fromUtf8 {bytes : List UInt8} {s : String}
    (hs : fromUtf8 bytes = some s) : s.utf8ByteSize = bytes.length := by
  rw [fromUtf8, String.fromUTF8?] at hs
  split at hs
  · cases hs
    rfl
  · cases hs

/-! ## Splitting -/

theorem stripPrefix_eq_some {c : Char} {s rest : String} (hs : stripPrefix c s = some rest) :
    s = String.singleton c ++ rest := by
  unfold stripPrefix at hs
  split at hs
  · cases hs
  · rename_i first tail hlist
    split at hs
    · rename_i hfirst
      cases hs
      apply String.toList_inj.mp
      simp [hlist, hfirst]
    · cases hs

theorem split_append (sep : Char) (before after : String) :
    split sep (before ++ String.singleton sep ++ after) = split sep before ++ split sep after := by
  have hlist : (before ++ String.singleton sep ++ after).toList =
      before.toList ++ sep :: after.toList := by simp
  rw [split, hlist, List.splitOn, List.splitOnP_append_cons _ _ (by simp), List.map_append]
  rfl

theorem split_of_not_mem {sep : Char} {s : String} (hsep : sep ∉ s.toList) : split sep s = [s] := by
  have hsingle : s.toList.splitOn sep = [s.toList] := by
    refine List.splitOnP_eq_singleton ?_
    intro c hc
    have hne : c ≠ sep := by
      rintro rfl
      exact hsep hc
    simpa using hne
  simp [split, hsingle]

theorem not_mem_of_mem_splitOn {α : Type*} [DecidableEq α] {sep : α} {l part : List α}
    (hpart : part ∈ l.splitOn sep) : sep ∉ part := by
  induction l generalizing part with
  | nil =>
    obtain rfl : part = [] := by simpa [List.splitOn] using hpart
    exact List.not_mem_nil
  | cons first rest ih =>
    rw [List.splitOn, List.splitOnP_cons_eq_if_modifyHead] at hpart
    split at hpart
    · rcases List.mem_cons.mp hpart with rfl | hrest
      · exact List.not_mem_nil
      · exact ih hrest
    · rename_i hfirst
      cases hparts : rest.splitOnP (· == sep) with
      | nil => exact absurd hparts (List.splitOnP_ne_nil _ _)
      | cons head tail =>
        rw [hparts, List.modifyHead_cons] at hpart
        rcases List.mem_cons.mp hpart with rfl | htail
        · have hhead : sep ∉ head := ih (by rw [List.splitOn, hparts]; exact List.mem_cons_self)
          rw [List.mem_cons, not_or]
          refine ⟨?_, hhead⟩
          rintro rfl
          simp at hfirst
        · exact ih (by rw [List.splitOn, hparts]; exact List.mem_cons_of_mem _ htail)

/-- The parts have no separator in them. -/
theorem not_mem_of_mem_split {sep : Char} {s part : String} (hpart : part ∈ split sep s) :
    sep ∉ part.toList := by
  obtain ⟨chars, hchars, rfl⟩ := List.mem_map.mp hpart
  rw [String.toList_ofList]
  exact not_mem_of_mem_splitOn hchars

theorem rsplitOnce_eq_some {sep : Char} {s before after : String}
    (hs : rsplitOnce sep s = some (before, after)) :
    s = before ++ String.singleton sep ++ after ∧ sep ∉ after.toList := by
  simp only [rsplitOnce] at hs
  split at hs
  · cases hs
  · rename_i hne
    cases hs
    have hlast : (s.toList.rdropWhile (· ≠ sep)).getLast hne = sep := by
      simpa using List.rdropWhile_last_not (· ≠ sep) s.toList hne
    constructor
    · apply String.toList_inj.mp
      have hcut := List.dropLast_append_getLast hne
      rw [hlast] at hcut
      simp only [String.toList_append, String.toList_ofList, String.toList_singleton]
      rw [hcut, List.rdropWhile_append_rtakeWhile]
    · intro hmem
      rw [String.toList_ofList] at hmem
      simpa using List.mem_rtakeWhile_imp hmem

theorem rsplitOnce_eq_none {sep : Char} {s : String} (hs : rsplitOnce sep s = none) :
    sep ∉ s.toList := by
  simp only [rsplitOnce] at hs
  split at hs
  · rename_i hnil
    intro hmem
    simpa using List.rdropWhile_eq_nil_iff.mp hnil sep hmem
  · cases hs

end Hyperion.Lib
