import Hyperion.Mm.VmmInvariant

/-!
# Translation through the predecessor mapping

`translate` looks at one mapping only, the one with the greatest start not above
the address.  That is the mapping containing the address if there is one at all,
because another mapping starting in between would have to overlap it
(`lastLE_of_mem_range`).  So on well-formed address spaces `translate` agrees
with a search through all mappings, and its effect is local: mapping or
unmapping a range changes the translation of that range and nothing else,
although it changes the predecessor of every higher address.
-/

namespace Hyperion.Mm.Vmm

open Hyperion.Lib

/-- `v` lies in the mapping. -/
def Mapping.contains (mapping : Mapping) (v : UInt64) : Bool :=
  mapping.va.toNat ≤ v.toNat && v.toNat < mapping.va.toNat + mapping.len.toNat

/-- The reference translation: search all mappings for one that contains `v`. -/
def AddressSpace.search (space : AddressSpace) (v : UInt64) : Option UInt64 :=
  (space.mappings.values.find? fun mapping => mapping.contains v).map fun mapping =>
    mapping.pa + (v - mapping.va)

variable {space : AddressSpace} {v : UInt64}

theorem contains_iff {mapping : Mapping} :
    mapping.contains v = true ↔ v.toNat ∈ mapping.range := by
  simp [Mapping.contains, Mapping.range]

theorem Mapping.Valid.va_mem_range {mapping : Mapping} (hvalid : mapping.Valid) :
    mapping.va.toNat ∈ mapping.range :=
  ⟨le_rfl, Nat.lt_add_of_pos_right hvalid.len_pos⟩

/-! ## The predecessor is the mapping that contains the address -/

section

variable (hwf : WellFormed space)

include hwf

theorem lastLE_of_mem_range {entry : UInt64 × Mapping} (hentry : entry ∈ space.mappings.entries)
    (hv : v.toNat ∈ entry.2.range) :
    space.mappings.lastLE v = some entry := by
  rw [OrdMap.lastLE_eq_some]
  have hkey := hwf.keyed entry hentry
  refine ⟨hentry, ?_, ?_⟩
  · rw [hkey, UInt64.le_iff_toNat_le]
    exact hv.1
  · intro other hother hle
    by_contra hlater
    have hlater : entry.1 < other.1 := not_le.mp hlater
    have hotherKey := hwf.keyed other hother
    have hne : entry ≠ other := fun heq => hlater.ne (congrArg Prod.fst heq)
    rw [UInt64.le_iff_toNat_le] at hle
    rw [UInt64.lt_iff_toNat_lt] at hlater
    have hend : v.toNat < entry.2.va.toNat + entry.2.len.toNat := hv.2
    -- the start of a later mapping would lie in both ranges
    have hstart : other.2.va.toNat ∈ entry.2.range := by
      rw [← hotherKey]
      exact ⟨hkey ▸ hlater.le, by omega⟩
    exact Set.disjoint_left.mp (hwf.disjoint entry hentry other hother hne) hstart
      (hwf.valid other hother).va_mem_range

theorem translate_of_mem_range {entry : UInt64 × Mapping} (hentry : entry ∈ space.mappings.entries)
    (hv : v.toNat ∈ entry.2.range) :
    space.translate v = some (entry.2.pa + (v - entry.2.va)) := by
  have hkey := hwf.keyed entry hentry
  have hle : entry.2.va ≤ v := UInt64.le_iff_toNat_le.mpr hv.1
  have hoffset : v - entry.2.va < entry.2.len := by
    rw [UInt64.lt_iff_toNat_lt, UInt64.toNat_sub_of_le _ _ hle]
    have := hv.1
    have := hv.2
    omega
  simp only [AddressSpace.translate, lastLE_of_mem_range hwf hentry hv, hkey]
  rw [if_neg (UInt64.not_lt.mpr hle), if_pos hoffset]

theorem translate_of_forall_notMem
    (hnone : ∀ entry ∈ space.mappings.entries, v.toNat ∉ entry.2.range) :
    space.translate v = none := by
  cases hlast : space.mappings.lastLE v with
  | none => simp [AddressSpace.translate, hlast]
  | some entry =>
    obtain ⟨hentry, hle, _⟩ := OrdMap.lastLE_eq_some.mp hlast
    have hkey := hwf.keyed entry hentry
    have hoffset : ¬ v - entry.1 < entry.2.len := by
      intro hlt
      rw [UInt64.lt_iff_toNat_lt, UInt64.toNat_sub_of_le _ _ hle] at hlt
      rw [UInt64.le_iff_toNat_le] at hle
      refine hnone entry hentry ⟨by rw [← hkey]; exact hle, ?_⟩
      rw [← hkey]
      omega
    simp only [AddressSpace.translate, hlast]
    rw [if_neg (UInt64.not_lt.mpr hle), if_neg hoffset]

theorem translate_eq_search (v : UInt64) :
    space.translate v = space.search v := by
  unfold AddressSpace.search
  cases hfind : space.mappings.values.find? fun mapping => mapping.contains v with
  | none =>
    refine translate_of_forall_notMem hwf fun entry hentry hv => ?_
    have hmem : entry.2 ∈ space.mappings.values := List.mem_map_of_mem hentry
    exact List.find?_eq_none.mp hfind entry.2 hmem (contains_iff.mpr hv)
  | some mapping =>
    obtain ⟨entry, hentry, rfl⟩ := List.mem_map.mp (List.mem_of_find?_eq_some hfind)
    have hv : v.toNat ∈ entry.2.range :=
      contains_iff.mp (by simpa using List.find?_some hfind)
    exact translate_of_mem_range hwf hentry hv

theorem translate_isSome_iff :
    (space.translate v).isSome = true ↔
      ∃ mapping ∈ space.mappings.values, v.toNat ∈ mapping.range := by
  constructor
  · intro hsome
    by_contra hnone
    push Not at hnone
    rw [translate_of_forall_notMem hwf fun entry hentry =>
      hnone entry.2 (List.mem_map_of_mem hentry)] at hsome
    exact absurd hsome (by decide)
  · rintro ⟨mapping, hmem, hv⟩
    obtain ⟨entry, hentry, rfl⟩ := List.mem_map.mp hmem
    rw [translate_of_mem_range hwf hentry hv]
    rfl

end

/-! ## Locality -/

/-- Two well-formed address spaces with the same mappings around `v` translate
`v` alike. -/
theorem translate_congr {first second : AddressSpace} (hfirst : WellFormed first)
    (hsecond : WellFormed second) (hsame : ∀ entry : UInt64 × Mapping, v.toNat ∈ entry.2.range →
      (entry ∈ first.mappings.entries ↔ entry ∈ second.mappings.entries)) :
    first.translate v = second.translate v := by
  by_cases hmem : ∃ entry ∈ first.mappings.entries, v.toNat ∈ entry.2.range
  · obtain ⟨entry, hentry, hv⟩ := hmem
    rw [translate_of_mem_range hfirst hentry hv,
      translate_of_mem_range hsecond ((hsame entry hv).mp hentry) hv]
  · push Not at hmem
    rw [translate_of_forall_notMem hfirst hmem, translate_of_forall_notMem hsecond]
    exact fun entry hentry hv => hmem entry ((hsame entry hv).mpr hentry) hv

theorem translate_map (hwf : WellFormed space) {pmm : Pmm.State} {va pa len : UInt64}
    (hok : (space.map pmm va pa len).1 = .ok ()) (v : UInt64) :
    (v.toNat ∈ Set.Ico va.toNat (va.toNat + roundUp len.toNat) →
        space.translate v = none ∧
          (space.map pmm va pa len).2.1.translate v = some (pa + (v - va))) ∧
      (v.toNat ∉ Set.Ico va.toNat (va.toNat + roundUp len.toNat) →
        (space.map pmm va pa len).2.1.translate v = space.translate v) := by
  rcases map_cases space pmm va pa len with ⟨e, heq, _⟩ | ⟨rounded, root, pmm', hcheck, _, heq⟩
  · rw [heq] at hok
    exact absurd hok (by simp)
  · obtain ⟨_, _, _, _, hnat, _, hdisjoint⟩ := (checkMap_eq_ok hwf).mp hcheck
    have hnext := hwf.insert hcheck root
    have hrange : (⟨va, pa, rounded⟩ : Mapping).range =
        Set.Ico va.toNat (va.toNat + roundUp len.toNat) := by
      rw [Mapping.range, hnat]
    have hapart : ∀ entry ∈ space.mappings.entries,
        v.toNat ∈ Set.Ico va.toNat (va.toNat + roundUp len.toNat) → v.toNat ∉ entry.2.range :=
      fun entry hentry hv =>
        Set.disjoint_left.mp (hdisjoint entry.2 (List.mem_map_of_mem hentry)) hv
    rw [heq]
    refine ⟨fun hv => ⟨?_, ?_⟩, fun hv => ?_⟩
    · exact translate_of_forall_notMem hwf fun entry hentry => hapart entry hentry hv
    · exact translate_of_mem_range hnext (OrdMap.mem_entries_insert.mpr (.inl rfl))
        (by rw [hrange]; exact hv)
    · refine translate_congr hnext hwf fun entry hentry => ?_
      rw [OrdMap.mem_entries_insert]
      constructor
      · rintro (rfl | ⟨hold, _⟩)
        · exact absurd (hrange ▸ hentry) hv
        · exact hold
      · intro hold
        refine .inr ⟨hold, fun hkey => ?_⟩
        -- an old mapping starting at `va` would meet the new range
        have hnew := (hnext.valid _ (OrdMap.mem_entries_insert.mpr (.inl rfl))).va_mem_range
        have hstart := (hwf.valid entry hold).va_mem_range
        rw [← hwf.keyed entry hold, hkey] at hstart
        exact Set.disjoint_left.mp (hdisjoint entry.2 (List.mem_map_of_mem hold))
          (hrange ▸ hnew) hstart

theorem translate_unmap (hwf : WellFormed space) {va : UInt64} {mapping : Mapping}
    (hsome : (space.unmap va).1 = some mapping) (v : UInt64) :
    (v.toNat ∈ mapping.range →
        (space.translate v).isSome = true ∧ (space.unmap va).2.translate v = none) ∧
      (v.toNat ∉ mapping.range → (space.unmap va).2.translate v = space.translate v) := by
  have hentry : (va, mapping) ∈ space.mappings.entries := OrdMap.get?_eq_some.mp hsome
  have hnext : WellFormed (space.unmap va).2 := hwf.erase va
  refine ⟨fun hv => ⟨(translate_isSome_iff hwf).mpr ⟨_, List.mem_map_of_mem hentry, hv⟩, ?_⟩,
    fun hv => ?_⟩
  · refine translate_of_forall_notMem hnext fun other hother hother' => ?_
    obtain ⟨hold, hne⟩ := OrdMap.mem_entries_erase.mp hother
    have hapart : ((va, mapping) : UInt64 × Mapping) ≠ other :=
      fun heq => hne (congrArg Prod.fst heq).symm
    exact Set.disjoint_left.mp (hwf.disjoint _ hentry other hold hapart) hv hother'
  · refine translate_congr hnext hwf fun entry hrange => ?_
    rw [AddressSpace.unmap, OrdMap.mem_entries_erase]
    refine ⟨And.left, fun hold => ⟨hold, fun hkey => hv ?_⟩⟩
    have := space.mappings.eq_of_mem_of_key_eq hold hentry hkey
    rw [this] at hrange
    exact hrange

/-- **Translation agrees with a search through all mappings**, in every reachable
address space; a successful `map` changes it on exactly the new range, and a
successful `unmap` on exactly the removed one. -/
theorem reachable_translate (pmm₀ pmm : Pmm.State) (space : AddressSpace) (events : List Event)
    (run : Run Step (AddressSpace.newUnmaterialised, pmm₀) events (space, pmm)) :
    (∀ v, space.translate v = space.search v ∧
      ((space.translate v).isSome = true ↔
        ∃ mapping ∈ space.mappings.values, v.toNat ∈ mapping.range) ∧
      ∀ mapping ∈ space.mappings.values, v.toNat ∈ mapping.range →
        space.translate v = some (mapping.pa + (v - mapping.va))) ∧
    (∀ va pa len, (space.map pmm va pa len).1 = .ok () → ∀ v,
      (v.toNat ∈ Set.Ico va.toNat (va.toNat + roundUp len.toNat) →
        space.translate v = none ∧
          (space.map pmm va pa len).2.1.translate v = some (pa + (v - va))) ∧
      (v.toNat ∉ Set.Ico va.toNat (va.toNat + roundUp len.toNat) →
        (space.map pmm va pa len).2.1.translate v = space.translate v)) ∧
    (∀ va mapping, (space.unmap va).1 = some mapping → ∀ v,
      (v.toNat ∈ mapping.range →
        (space.translate v).isSome = true ∧ (space.unmap va).2.translate v = none) ∧
      (v.toNat ∉ mapping.range → (space.unmap va).2.translate v = space.translate v)) := by
  have hwf := run_wellFormed run
  refine ⟨fun v => ⟨translate_eq_search hwf v, translate_isSome_iff hwf, ?_⟩,
    fun va pa len hok v => translate_map hwf hok v,
    fun va mapping hsome v => translate_unmap hwf hsome v⟩
  intro mapping hmem hv
  obtain ⟨entry, hentry, rfl⟩ := List.mem_map.mp hmem
  exact translate_of_mem_range hwf hentry hv

/-- An address inside a mapped page, and one just past it. -/
theorem reachable_translate_smallPool :
    let space := (AddressSpace.newUnmaterialised.map smallPool 0x4000 0x8000 100).2.1
    space.search 0x4010 = some 0x8010 ∧ space.translate 0x4010 = some 0x8010 ∧
      space.translate 0x5000 = none := by
  have hrun := Run.nil.snoc (Step.map AddressSpace.newUnmaterialised smallPool 0x4000 0x8000 100)
  obtain ⟨hsearch, _, _⟩ := reachable_translate smallPool _ _ _ hrun
  have hfound : (AddressSpace.newUnmaterialised.map smallPool 0x4000 0x8000 100).2.1.search 0x4010 =
      some 0x8010 := by
    decide +kernel
  exact ⟨hfound, (hsearch 0x4010).1.trans hfound, rfl⟩

end Hyperion.Mm.Vmm
