import Hyperion.Mm.Translate

/-!
# The physical end of a mapping

`map` computes the end of the virtual range with a check for overflow.  The physical range
gets no such check, and `translate` adds the offset to the physical start with a sum that
wraps.  A mapping whose physical range runs over the end of the 64-bit addresses is accepted
like any other, and the addresses of its last pages translate to the bottom of memory.

The table holds what the accepted calls of `map` put there (`FromMaps`), so the address spaces
of a run stay clear of this exactly when each of those calls does.
-/

namespace Hyperion.Mm.Vmm

open Hyperion.Lib

/-- The physical addresses a mapping stands for. -/
def Mapping.frames (mapping : Mapping) : Set ℕ :=
  Set.Ico mapping.pa.toNat (mapping.pa.toNat + mapping.len.toNat)

/-- The physical range of a mapping ends inside the 64-bit addresses, and each virtual
address of the mapping translates to the address of that range with the same offset. -/
structure Mapping.Exact (space : AddressSpace) (mapping : Mapping) : Prop where
  end_le : mapping.pa.toNat + mapping.len.toNat ≤ 2 ^ 64
  translate_eq : ∀ v : UInt64, v.toNat ∈ mapping.range → ∃ p, space.translate v = some p ∧
    p.toNat = mapping.pa.toNat + (v.toNat - mapping.va.toNat) ∧ p.toNat ∈ mapping.frames

/-- The end of the physical range that a call of `map` asks for. -/
def Fits (pa len : UInt64) : Prop := pa.toNat + roundUp len.toNat ≤ 2 ^ 64

/-- Every mapping of the table was put there by an accepted call. -/
def FromMaps (events : List Event) (space : AddressSpace) : Prop :=
  ∀ mapping ∈ space.mappings.values, ∃ len,
    Event.map mapping.va mapping.pa len (.ok ()) ∈ events ∧
      mapping.len.toNat = roundUp len.toNat

/-! ## Steps -/

/-- What an accepted call leaves in the table. -/
theorem map_eq_ok {space next : AddressSpace} (hwf : WellFormed space) {pmm pmm' : Pmm.State}
    {va pa len : UInt64} (hmap : space.map pmm va pa len = (.ok (), next, pmm')) :
    ∃ rounded : UInt64, rounded.toNat = roundUp len.toNat ∧
      next.mappings = space.mappings.insert va ⟨va, pa, rounded⟩ := by
  rcases map_cases space pmm va pa len with ⟨e, herror, _⟩ | ⟨rounded, root, _, hcheck, _, hok⟩
  · rw [herror] at hmap
    cases hmap
  · rw [hok] at hmap
    cases hmap
    obtain ⟨_, _, _, _, hrounded, _⟩ := (checkMap_eq_ok hwf).mp hcheck
    exact ⟨rounded, hrounded, rfl⟩

theorem step_map_ok {state next : AddressSpace × Pmm.State} (hwf : WellFormed state.1)
    {va pa len : UInt64} (step : Step state (.map va pa len (.ok ())) next) :
    ∃ mapping ∈ next.1.mappings.values,
      mapping.pa = pa ∧ mapping.len.toNat = roundUp len.toNat := by
  generalize hevent : Event.map va pa len (.ok ()) = event at step
  cases step with
  | map space pmm va' pa' len' =>
    obtain ⟨rfl, rfl, rfl, hok⟩ := Event.map.inj hevent
    obtain ⟨rounded, hrounded, hinsert⟩ := map_eq_ok hwf (Prod.ext hok.symm rfl)
    refine ⟨⟨va, pa, rounded⟩, ?_, rfl, hrounded⟩
    rw [hinsert]
    exact List.mem_map_of_mem (OrdMap.mem_entries_insert.mpr (.inl rfl))
  | unmap space pmm va' => cases hevent
  | frames space step => cases hevent

theorem FromMaps.mono {events more : List Event} {space next : AddressSpace}
    (hfrom : FromMaps events space) (hevents : events ⊆ more)
    (hvalues : ∀ mapping ∈ next.mappings.values, mapping ∈ space.mappings.values) :
    FromMaps more next := by
  intro mapping hmem
  obtain ⟨len, hevent, hlen⟩ := hfrom mapping (hvalues mapping hmem)
  exact ⟨len, hevents hevent, hlen⟩

theorem step_fromMaps {events : List Event} {state next : AddressSpace × Pmm.State} {event : Event}
    (hwf : WellFormed state.1) (hfrom : FromMaps events state.1) (step : Step state event next) :
    FromMaps (events ++ [event]) next.1 := by
  have hsub : events ⊆ events ++ [event] := List.subset_append_left _ _
  cases step with
  | map space pmm va pa len =>
    rcases map_cases space pmm va pa len with ⟨e, heq, _⟩ | ⟨_, _, _, _, _, heq⟩
    · rw [heq] at hsub ⊢
      exact hfrom.mono hsub fun _ h => h
    · obtain ⟨rounded, hrounded, hinsert⟩ := map_eq_ok hwf heq
      intro mapping hmem
      rw [heq, hinsert] at hmem
      obtain ⟨entry, hentry, rfl⟩ := List.mem_map.mp hmem
      rcases OrdMap.mem_entries_insert.mp hentry with rfl | ⟨hold, _⟩
      · exact ⟨len, by simp [heq], hrounded⟩
      · obtain ⟨len', hevent, hlen⟩ := hfrom entry.2 (List.mem_map_of_mem hold)
        exact ⟨len', List.mem_append_left _ hevent, hlen⟩
  | unmap space pmm va =>
    refine hfrom.mono hsub fun mapping hmem => ?_
    obtain ⟨entry, hentry, rfl⟩ := List.mem_map.mp hmem
    exact List.mem_map_of_mem (OrdMap.mem_entries_erase.mp hentry).1
  | frames space step => exact hfrom.mono hsub fun _ h => h

theorem run_fromMaps {pmm₀ : Pmm.State} {events : List Event} {state : AddressSpace × Pmm.State}
    (run : Run Step (AddressSpace.newUnmaterialised, pmm₀) events state) :
    FromMaps events state.1 := by
  have hboth : WellFormed state.1 ∧ FromMaps events state.1 := by
    refine run.history_invariant (fun events state => WellFormed state.1 ∧ FromMaps events state.1)
      ⟨wellFormed_newUnmaterialised, ?_⟩ ?_
    · intro mapping hmem
      simp [AddressSpace.newUnmaterialised, OrdMap.values, OrdMap.empty] at hmem
    · intro events state event next hboth step
      obtain ⟨hwf, hfrom⟩ := hboth
      exact ⟨step_wellFormed state event next hwf step, step_fromMaps hwf hfrom step⟩
  exact hboth.2

/-! ## Translation -/

/-- A physical range that ends in time is translated to without wrapping. -/
theorem exact_of_end_le {space : AddressSpace} (hwf : WellFormed space) {mapping : Mapping}
    (hmem : mapping ∈ space.mappings.values)
    (hend : mapping.pa.toNat + mapping.len.toNat ≤ 2 ^ 64) : mapping.Exact space := by
  refine ⟨hend, fun v hv => ?_⟩
  obtain ⟨entry, hentry, rfl⟩ := List.mem_map.mp hmem
  obtain ⟨hle, hlt⟩ := hv
  have hoffset : (v - entry.2.va).toNat = v.toNat - entry.2.va.toNat :=
    UInt64.toNat_sub_of_le _ _ (UInt64.le_iff_toNat_le.mpr hle)
  have hsum : (entry.2.pa + (v - entry.2.va)).toNat =
      entry.2.pa.toNat + (v.toNat - entry.2.va.toNat) := by
    rw [UInt64.toNat_add, hoffset]
    exact Nat.mod_eq_of_lt (by omega)
  refine ⟨_, translate_of_mem_range hwf hentry ⟨hle, hlt⟩, hsum, ?_⟩
  rw [hsum]
  exact ⟨Nat.le_add_right _ _, by omega⟩

/-- **Along a run every mapping stays inside the 64-bit physical addresses** exactly when the
physical range of every accepted `map` does. -/
theorem reachable_physical_iff (pmm₀ : Pmm.State) (events : List Event)
    (last : AddressSpace × Pmm.State)
    (run : Run Step (AddressSpace.newUnmaterialised, pmm₀) events last) :
    (∀ before after middle, before ++ after = events →
      Run Step (AddressSpace.newUnmaterialised, pmm₀) before middle → Run Step middle after last →
      ∀ mapping ∈ middle.1.mappings.values, mapping.Exact middle.1) ↔
    ∀ va pa len, Event.map va pa len (.ok ()) ∈ events → Fits pa len := by
  constructor
  · intro hexact va pa len hevent
    obtain ⟨before, after, rfl⟩ := List.append_of_mem hevent
    rw [List.append_cons] at run
    -- the state right behind the call
    obtain ⟨middle, hfirst, hrest⟩ := run.split
    obtain ⟨prior, hprior, hstep⟩ := hfirst.exists_last
    obtain ⟨mapping, hmem, hpa, hlen⟩ := step_map_ok (run_wellFormed hprior) hstep
    have hend := (hexact _ after middle (by simp) hfirst hrest mapping hmem).end_le
    rwa [hpa, hlen] at hend
  · intro hfits before after middle hevents hrun _ mapping hmem
    obtain ⟨len, hevent, hlen⟩ := run_fromMaps hrun mapping hmem
    have hend : Fits mapping.pa len :=
      hfits mapping.va mapping.pa len (hevents ▸ List.mem_append_left after hevent)
    rw [Fits, ← hlen] at hend
    exact exact_of_end_le (run_wellFormed hrun) hmem hend

theorem reachable_physical_iff_smallPool :
    let space := (AddressSpace.newUnmaterialised.map smallPool 0x4000 0x8000 100).2.1
    (⟨0x4000, 0x8000, 0x1000⟩ : Mapping).Exact space := by
  have hrun := Run.nil.snoc (Step.map AddressSpace.newUnmaterialised smallPool 0x4000 0x8000 100)
  have hexact := (reachable_physical_iff smallPool _ _ hrun).mpr
    (by
      intro va pa len hevent
      obtain ⟨rfl, rfl, rfl, _⟩ : va = 0x4000 ∧ pa = 0x8000 ∧ len = 100 ∧ _ := by
        simpa using hevent
      show _ + roundUp _ ≤ _
      decide)
  exact hexact _ [] _ (by simp) hrun .nil _ (by decide +kernel)

/-- Two pages mapped to the last frame below `2^64` and whatever comes after it. -/
def overTheEnd : AddressSpace × Pmm.State :=
  (AddressSpace.newUnmaterialised.map smallPool 0x4000 0xfffffffffffff000 0x2000).2

theorem run_overTheEnd :
    Run Step (AddressSpace.newUnmaterialised, smallPool)
      [.map 0x4000 0xfffffffffffff000 0x2000 (.ok ())] overTheEnd := by
  have hok : (AddressSpace.newUnmaterialised.map smallPool 0x4000 0xfffffffffffff000 0x2000).1 =
      .ok () := by
    decide +kernel
  have hstep := Step.map AddressSpace.newUnmaterialised smallPool 0x4000 0xfffffffffffff000 0x2000
  rw [hok] at hstep
  exact Run.nil.snoc hstep

/-- One page up from the last frame is address zero. -/
theorem translate_overTheEnd :
    Run Step (AddressSpace.newUnmaterialised, smallPool)
        [.map 0x4000 0xfffffffffffff000 0x2000 (.ok ())] overTheEnd ∧
      overTheEnd.1.mappings.values = [⟨0x4000, 0xfffffffffffff000, 0x2000⟩] ∧
      overTheEnd.1.translate 0x5000 = some 0 ∧
      ¬Mapping.Exact overTheEnd.1 ⟨0x4000, 0xfffffffffffff000, 0x2000⟩ := by
  refine ⟨run_overTheEnd, rfl, rfl, fun hexact => ?_⟩
  exact absurd hexact.end_le (by decide)

end Hyperion.Mm.Vmm
