import Mathlib

/-!
# Ordered finite maps

A map kept as the list of its entries in increasing key order, which is what an
ordered tree map shows through its iterators.  The order is a field of the
structure, so two entries never share a key.

Besides lookup, insertion and removal there is `lastLE`, the entry with the
greatest key not above a bound; `lastLE_eq_some` says which entry that is and
`lastLE_eq_none` when there is none.
-/

namespace Hyperion.Lib

variable {K V : Type*} [LinearOrder K]

/-- A finite map with its entries in strictly increasing key order. -/
structure OrdMap (K V : Type*) [LinearOrder K] where
  entries : List (K × V)
  sorted : entries.Pairwise fun earlier later => earlier.1 < later.1

namespace OrdMap

/-- The empty map. -/
def empty : OrdMap K V := ⟨[], List.Pairwise.nil⟩

/-- The value stored under `key`. -/
def get? (m : OrdMap K V) (key : K) : Option V :=
  (m.entries.find? fun entry => entry.1 = key).map Prod.snd

/-- The keys in increasing order. -/
def keys (m : OrdMap K V) : List K := m.entries.map Prod.fst

/-- The values in increasing order of their keys. -/
def values (m : OrdMap K V) : List V := m.entries.map Prod.snd

/-- Store `value` under `key`, replacing what was there. -/
def insert (m : OrdMap K V) (key : K) (value : V) : OrdMap K V where
  entries := (m.entries.filter fun entry => entry.1 < key) ++
    (key, value) :: m.entries.filter fun entry => key < entry.1
  sorted := by
    refine List.pairwise_append.mpr ⟨m.sorted.filter _, ?_, ?_⟩
    · refine List.pairwise_cons.mpr ⟨?_, m.sorted.filter _⟩
      intro entry hentry
      simpa using (List.mem_filter.mp hentry).2
    · intro low hlow high hhigh
      have hlow : low.1 < key := by simpa using (List.mem_filter.mp hlow).2
      rcases List.mem_cons.mp hhigh with rfl | hhigh
      · exact hlow
      · exact hlow.trans (by simpa using (List.mem_filter.mp hhigh).2)

/-- Remove whatever is stored under `key`. -/
def erase (m : OrdMap K V) (key : K) : OrdMap K V where
  entries := m.entries.filter fun entry => entry.1 ≠ key
  sorted := m.sorted.filter _

/-- The entry with the greatest key not above `bound`. -/
def lastLE (m : OrdMap K V) (bound : K) : Option (K × V) :=
  (m.entries.filter fun entry => entry.1 ≤ bound).getLast?

/-! ## Entries and lookups -/

theorem nodup_keys (m : OrdMap K V) : m.keys.Nodup :=
  List.pairwise_map.mpr (m.sorted.imp fun hlt => hlt.ne)

/-- Two entries with the same key are the same entry. -/
theorem eq_of_mem_of_key_eq (m : OrdMap K V) {first second : K × V} (hfirst : first ∈ m.entries)
    (hsecond : second ∈ m.entries) (hkey : first.1 = second.1) : first = second :=
  List.inj_on_of_nodup_map m.nodup_keys hfirst hsecond hkey

variable {m : OrdMap K V}

theorem get?_eq_some {key : K} {value : V} :
    m.get? key = some value ↔ (key, value) ∈ m.entries := by
  unfold get?
  constructor
  · intro hget
    obtain ⟨entry, hfind, rfl⟩ := Option.map_eq_some_iff.mp hget
    have hkey : entry.1 = key := by simpa using List.find?_some hfind
    have hmem := List.mem_of_find?_eq_some hfind
    rwa [← hkey]
  · intro hmem
    cases hfind : m.entries.find? fun entry => entry.1 = key with
    | none =>
      have := List.find?_eq_none.mp hfind _ hmem
      simp at this
    | some entry =>
      have hkey : entry.1 = key := by simpa using List.find?_some hfind
      rw [m.eq_of_mem_of_key_eq (List.mem_of_find?_eq_some hfind) hmem hkey]
      rfl

theorem get?_eq_none {key : K} :
    m.get? key = none ↔ ∀ entry ∈ m.entries, entry.1 ≠ key := by
  unfold get?
  rw [Option.map_eq_none_iff, List.find?_eq_none]
  simp

theorem mem_entries_insert {key : K} {value : V} {entry : K × V} :
    entry ∈ (m.insert key value).entries ↔
      entry = (key, value) ∨ entry ∈ m.entries ∧ entry.1 ≠ key := by
  simp only [insert, List.mem_append, List.mem_cons, List.mem_filter, decide_eq_true_eq]
  constructor
  · rintro (⟨hmem, hlt⟩ | rfl | ⟨hmem, hlt⟩)
    · exact .inr ⟨hmem, hlt.ne⟩
    · exact .inl rfl
    · exact .inr ⟨hmem, hlt.ne'⟩
  · rintro (rfl | ⟨hmem, hne⟩)
    · exact .inr (.inl rfl)
    · rcases lt_or_gt_of_ne hne with hlt | hgt
      · exact .inl ⟨hmem, hlt⟩
      · exact .inr (.inr ⟨hmem, hgt⟩)

theorem mem_entries_erase {key : K} {entry : K × V} :
    entry ∈ (m.erase key).entries ↔ entry ∈ m.entries ∧ entry.1 ≠ key := by
  simp [erase, List.mem_filter]

theorem get?_insert (m : OrdMap K V) (key : K) (value : V) (other : K) :
    (m.insert key value).get? other = if other = key then some value else m.get? other := by
  split
  · rename_i heq
    rw [heq, get?_eq_some, mem_entries_insert]
    exact .inl rfl
  · rename_i hne
    apply Option.ext
    intro found
    rw [get?_eq_some, get?_eq_some, mem_entries_insert]
    simp [hne]

theorem get?_erase (m : OrdMap K V) (key other : K) :
    (m.erase key).get? other = if other = key then none else m.get? other := by
  split
  · rename_i heq
    rw [heq, get?_eq_none]
    intro entry hentry
    exact (mem_entries_erase.mp hentry).2
  · rename_i hne
    apply Option.ext
    intro found
    rw [get?_eq_some, get?_eq_some, mem_entries_erase]
    simp [hne]

/-! ## The greatest key below a bound -/

theorem lastLE_eq_none {bound : K} :
    m.lastLE bound = none ↔ ∀ entry ∈ m.entries, bound < entry.1 := by
  rw [lastLE, List.getLast?_eq_none_iff, List.filter_eq_nil_iff]
  simp

/-- `lastLE` returns the entry of the greatest key not above the bound. -/
theorem lastLE_eq_some {bound : K} {entry : K × V} :
    m.lastLE bound = some entry ↔
      entry ∈ m.entries ∧ entry.1 ≤ bound ∧
        ∀ other ∈ m.entries, other.1 ≤ bound → other.1 ≤ entry.1 := by
  have hsorted := m.sorted.filter fun candidate : K × V => decide (candidate.1 ≤ bound)
  have hlast : ∀ found, m.lastLE bound = some found →
      found ∈ m.entries ∧ found.1 ≤ bound ∧
        ∀ other ∈ m.entries, other.1 ≤ bound → other.1 ≤ found.1 := by
    intro found hfound
    obtain ⟨initial, hsplit⟩ := List.getLast?_eq_some_iff.mp hfound
    have hmem : found ∈ m.entries.filter fun candidate => decide (candidate.1 ≤ bound) := by
      rw [hsplit]
      simp
    refine ⟨(List.mem_filter.mp hmem).1, by simpa using (List.mem_filter.mp hmem).2, ?_⟩
    intro other hother hle
    have hother : other ∈ initial ++ [found] := by
      rw [← hsplit]
      exact List.mem_filter.mpr ⟨hother, by simpa using hle⟩
    rw [hsplit] at hsorted
    rcases List.mem_append.mp hother with hinit | hsame
    · exact ((List.pairwise_append.mp hsorted).2.2 other hinit found (by simp)).le
    · rw [List.mem_singleton.mp hsame]
  constructor
  · exact hlast entry
  · rintro ⟨hmem, hle, hgreatest⟩
    cases hfound : m.lastLE bound with
    | none => exact absurd hle (not_le.mpr (lastLE_eq_none.mp hfound entry hmem))
    | some found =>
      obtain ⟨hfmem, hfle, hfgreatest⟩ := hlast found hfound
      have hkey : found.1 = entry.1 :=
        le_antisymm (hgreatest found hfmem hfle) (hfgreatest entry hmem hle)
      rw [m.eq_of_mem_of_key_eq hfmem hmem hkey]

end OrdMap

end Hyperion.Lib
