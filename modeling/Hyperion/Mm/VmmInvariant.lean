import Hyperion.Lib.Checked
import Hyperion.Mm.PmmRefinement
import Hyperion.Mm.Vmm

/-!
# Address spaces stay well formed

Every mapping of a reachable address space is keyed by its own start, covers
whole pages inside the 64-bit space, and is disjoint from the others
(`WellFormed`).  On well-formed address spaces the loop of `map` over the
existing mappings decides exactly whether the new range meets one of them
(`checkOverlap_eq_ok`): the ends of existing mappings never overflow, so the
only way it fails is a real overlap.

Nothing is assumed of the allocator beyond `allocFrame_cases`.
-/

namespace Hyperion.Mm.Vmm

open Hyperion.Lib

/-- The least multiple of the page size not below `n`. -/
def roundUp (n : ℕ) : ℕ := (n + 4095) / 4096 * 4096

/-- The virtual addresses a mapping covers. -/
def Mapping.range (mapping : Mapping) : Set ℕ :=
  Set.Ico mapping.va.toNat (mapping.va.toNat + mapping.len.toNat)

structure Mapping.Valid (mapping : Mapping) : Prop where
  va_aligned : mapping.va.toNat % 4096 = 0
  pa_aligned : mapping.pa.toNat % 4096 = 0
  len_pos : 0 < mapping.len.toNat
  len_aligned : mapping.len.toNat % 4096 = 0
  end_lt : mapping.va.toNat + mapping.len.toNat < 2 ^ 64

structure WellFormed (space : AddressSpace) : Prop where
  keyed : ∀ entry ∈ space.mappings.entries, entry.1 = entry.2.va
  valid : ∀ entry ∈ space.mappings.entries, entry.2.Valid
  disjoint : ∀ first ∈ space.mappings.entries, ∀ second ∈ space.mappings.entries,
    first ≠ second → Disjoint first.2.range second.2.range

/-- Some managed frame is not in use. -/
def HasFreeFrame (pmm : Pmm.State) : Prop :=
  ∃ idx < pmm.numFrames, pmm.bitmap.isSet idx = false

/-! ## The checks of `map` -/

theorem normaliseLen_eq_ok {len rounded : UInt64} :
    normaliseLen len = .ok rounded ↔
      0 < len.toNat ∧ len.toNat + 4095 < 2 ^ 64 ∧ rounded.toNat = roundUp len.toNat := by
  have hmask : ((4096 : UInt64) - 1).toNat = 2 ^ 12 - 1 := rfl
  unfold normaliseLen
  by_cases hzero : len = 0
  · subst hzero
    simp
  · have hpos : 0 < len.toNat := by
      rw [Nat.pos_iff_ne_zero, Ne, ← UInt64.toNat_zero, UInt64.toNat_inj]
      exact hzero
    rw [if_neg hzero]
    cases hadd : checkedAdd len (4096 - 1) with
    | none =>
      have := checkedAdd_eq_none.mp hadd
      simp only [reduceCtorEq, false_iff]
      omega
    | some padded =>
      have hpadded : padded.toNat = len.toNat + 4095 := checkedAdd_eq_some.mp hadd
      have hlt := padded.toNat_lt
      have hround : (padded &&& ~~~(4096 - 1)).toNat = roundUp len.toNat := by
        rw [toNat_and_not_mask hmask, hpadded]
        rfl
      simp only [Except.ok.injEq]
      rw [← UInt64.toNat_inj, hround]
      constructor
      · intro heq
        exact ⟨hpos, by omega, heq.symm⟩
      · exact fun h => h.2.2.symm

theorem ensurePageAligned_eq_ok {addr : UInt64} :
    ensurePageAligned addr = .ok () ↔ addr.toNat % 4096 = 0 := by
  have hmask : ((4096 : UInt64) - 1).toNat = 2 ^ 12 - 1 := rfl
  have hzero : addr &&& (4096 - 1) = 0 ↔ addr.toNat % 4096 = 0 := by
    rw [← UInt64.toNat_inj, toNat_and_mask hmask]
    rfl
  rw [← hzero, ensurePageAligned]
  split <;> simp_all

theorem checkedEnd_eq_ok {start len stop : UInt64} :
    checkedEnd start len = .ok stop ↔ stop.toNat = start.toNat + len.toNat := by
  rw [← checkedAdd_eq_some, checkedEnd]
  cases checkedAdd start len with
  | none => simp
  | some found => simp

/-- Two non-empty half-open ranges meet exactly when each starts before the other
ends. -/
theorem disjoint_Ico_iff {a b c d : ℕ} (hab : a < b) (hcd : c < d) :
    Disjoint (Set.Ico a b) (Set.Ico c d) ↔ ¬ (a < d ∧ c < b) := by
  rw [Set.Ico_disjoint_Ico]
  omega

theorem checkOverlap_eq_ok {va stop : UInt64} (hlt : va.toNat < stop.toNat)
    {existing : List Mapping}
    (hvalid : ∀ mapping ∈ existing, mapping.Valid) :
    checkOverlap va stop existing = .ok () ↔
      ∀ mapping ∈ existing, Disjoint (Set.Ico va.toNat stop.toNat) mapping.range := by
  induction existing with
  | nil => simp [checkOverlap]
  | cons first rest ih =>
    have hfirst := hvalid first (List.mem_cons_self ..)
    have hrest := ih fun mapping hmem => hvalid mapping (List.mem_cons_of_mem _ hmem)
    have hfits := hfirst.end_lt
    have hpos := hfirst.len_pos
    have hend : (first.va + first.len).toNat = first.va.toNat + first.len.toNat :=
      toNat_add_of_lt hfits
    have hfirstDisjoint : rangesOverlap va stop first.va (first.va + first.len) = false ↔
        Disjoint (Set.Ico va.toNat stop.toNat) first.range := by
      rw [Mapping.range, disjoint_Ico_iff hlt (by omega), rangesOverlap]
      simp only [Bool.and_eq_false_iff, decide_eq_false_iff_not, UInt64.lt_iff_toNat_lt, hend]
      omega
    rw [List.forall_mem_cons, ← hrest, ← hfirstDisjoint, checkOverlap, checkedEnd_eq_ok.mpr hend]
    cases hoverlap : rangesOverlap va stop first.va (first.va + first.len) with
    | false => simp [Bind.bind, Except.bind, hoverlap]
    | true => simp [Bind.bind, Except.bind, hoverlap]

variable {space : AddressSpace}

/-- All checks of `map` pass exactly when the request is a non-empty, aligned,
representable range that meets no existing mapping. -/
theorem checkMap_eq_ok (hwf : WellFormed space) {va pa len rounded : UInt64} :
    space.checkMap va pa len = .ok rounded ↔
      0 < len.toNat ∧ len.toNat + 4095 < 2 ^ 64 ∧ va.toNat % 4096 = 0 ∧ pa.toNat % 4096 = 0 ∧
        rounded.toNat = roundUp len.toNat ∧ va.toNat + roundUp len.toNat < 2 ^ 64 ∧
        ∀ mapping ∈ space.mappings.values,
          Disjoint (Set.Ico va.toNat (va.toNat + roundUp len.toNat)) mapping.range := by
  have hvalid : ∀ mapping ∈ space.mappings.values, mapping.Valid := by
    intro mapping hmem
    obtain ⟨entry, hentry, rfl⟩ := List.mem_map.mp hmem
    exact hwf.valid entry hentry
  have hround : 0 < len.toNat → 0 < roundUp len.toNat := by
    intro hpos
    unfold roundUp
    omega
  constructor
  · intro hok
    obtain ⟨length, hlength, hok⟩ := bind_eq_ok.mp hok
    obtain ⟨_, hva, hok⟩ := bind_eq_ok.mp hok
    obtain ⟨_, hpa, hok⟩ := bind_eq_ok.mp hok
    obtain ⟨stop, hstop, hok⟩ := bind_eq_ok.mp hok
    obtain ⟨_, hoverlap, hok⟩ := bind_eq_ok.mp hok
    obtain rfl : length = rounded := by simpa [pure, Except.pure] using hok
    obtain ⟨hpos, hfits, hnat⟩ := normaliseLen_eq_ok.mp hlength
    have hend := checkedEnd_eq_ok.mp hstop
    have hstopLt := stop.toNat_lt
    rw [hnat] at hend
    have hdisjoint := (checkOverlap_eq_ok (by have := hround hpos; omega) hvalid).mp hoverlap
    rw [hend] at hdisjoint
    exact ⟨hpos, hfits, ensurePageAligned_eq_ok.mp hva, ensurePageAligned_eq_ok.mp hpa, hnat,
      by omega, hdisjoint⟩
  · rintro ⟨hpos, hfits, hva, hpa, hnat, hend, hdisjoint⟩
    have hsum : (va + rounded).toNat = va.toNat + rounded.toNat :=
      toNat_add_of_lt (by rw [hnat]; exact hend)
    refine bind_eq_ok.mpr ⟨rounded, normaliseLen_eq_ok.mpr ⟨hpos, hfits, hnat⟩, ?_⟩
    refine bind_eq_ok.mpr ⟨(), ensurePageAligned_eq_ok.mpr hva, ?_⟩
    refine bind_eq_ok.mpr ⟨(), ensurePageAligned_eq_ok.mpr hpa, ?_⟩
    refine bind_eq_ok.mpr ⟨va + rounded, checkedEnd_eq_ok.mpr hsum, ?_⟩
    refine bind_eq_ok.mpr ⟨(), (checkOverlap_eq_ok ?_ hvalid).mpr ?_, rfl⟩
    · have := hround hpos
      omega
    · rw [hsum, hnat]
      exact hdisjoint

/-! ## What one call does -/

theorem ensureRoot_cases (space : AddressSpace) (pmm : Pmm.State) :
    (space.root ≠ 0 ∧ space.ensureRoot pmm = (.ok (), space, pmm)) ∨
      (space.root = 0 ∧ HasFreeFrame pmm ∧
        ∃ frame pmm', Pmm.allocFrame pmm = (some frame, pmm') ∧
          space.ensureRoot pmm = (.ok (), { space with root := frame }, pmm')) ∨
      (space.root = 0 ∧ ¬ HasFreeFrame pmm ∧
        space.ensureRoot pmm = (.error .outOfMemory, space, pmm)) := by
  unfold AddressSpace.ensureRoot
  by_cases hroot : space.root = 0
  · rw [if_neg (by simpa using hroot)]
    rcases Pmm.allocFrame_cases pmm with ⟨hall, heq⟩ | ⟨idx, hidx, hclear, heq⟩
    · refine .inr (.inr ⟨hroot, ?_, by rw [heq]⟩)
      rintro ⟨idx, hidx, hclear⟩
      rw [hall idx hidx] at hclear
      exact absurd hclear (by decide)
    · exact .inr (.inl ⟨hroot, ⟨idx, hidx, hclear⟩, _, _, heq, by rw [heq]⟩)
  · rw [if_pos hroot]
    exact .inl ⟨hroot, rfl⟩

/-- `map` either refuses without any change, or records the new mapping in an
address space that keeps its mappings and now has a root. -/
theorem map_cases (space : AddressSpace) (pmm : Pmm.State) (va pa len : UInt64) :
    (∃ e, space.map pmm va pa len = (.error e, space, pmm) ∧
        ¬ ((∃ rounded, space.checkMap va pa len = .ok rounded) ∧
          (space.root ≠ 0 ∨ HasFreeFrame pmm))) ∨
      ∃ rounded root pmm', space.checkMap va pa len = .ok rounded ∧
        (space.root ≠ 0 ∨ HasFreeFrame pmm) ∧
        space.map pmm va pa len =
          (.ok (), ⟨root, space.mappings.insert va ⟨va, pa, rounded⟩⟩, pmm') := by
  cases hcheck : space.checkMap va pa len with
  | error e =>
    refine .inl ⟨e, by simp [AddressSpace.map, hcheck], ?_⟩
    rintro ⟨⟨rounded, hok⟩, _⟩
    cases hok
  | ok rounded =>
    rcases ensureRoot_cases space pmm with ⟨hroot, heq⟩ | ⟨hroot, hfree, frame, pmm', _, heq⟩ |
      ⟨hroot, hfull, heq⟩
    · exact .inr ⟨rounded, space.root, pmm, rfl, .inl hroot,
        by simp [AddressSpace.map, hcheck, heq]⟩
    · exact .inr ⟨rounded, frame, pmm', rfl, .inr hfree,
        by simp [AddressSpace.map, hcheck, heq]⟩
    · refine .inl ⟨.outOfMemory, by simp [AddressSpace.map, hcheck, heq], ?_⟩
      rintro ⟨_, hne | hfree⟩
      · exact hne hroot
      · exact hfull hfree

/-! ## The invariant is kept -/

theorem wellFormed_newUnmaterialised : WellFormed AddressSpace.newUnmaterialised :=
  ⟨by simp [AddressSpace.newUnmaterialised, OrdMap.empty],
    by simp [AddressSpace.newUnmaterialised, OrdMap.empty],
    by simp [AddressSpace.newUnmaterialised, OrdMap.empty]⟩

theorem WellFormed.insert (hwf : WellFormed space) {va pa len rounded : UInt64}
    (hcheck : space.checkMap va pa len = .ok rounded) (root : UInt64) :
    WellFormed ⟨root, space.mappings.insert va ⟨va, pa, rounded⟩⟩ := by
  obtain ⟨hpos, _, hva, hpa, hnat, hend, hdisjoint⟩ := (checkMap_eq_ok hwf).mp hcheck
  have hround : 0 < roundUp len.toNat ∧ roundUp len.toNat % 4096 = 0 := by
    unfold roundUp
    omega
  have hnew : (⟨va, pa, rounded⟩ : Mapping).Valid :=
    ⟨hva, hpa, by simp only [hnat]; exact hround.1, by simp only [hnat]; exact hround.2,
      by simp only [hnat]; exact hend⟩
  have hapart : ∀ entry ∈ space.mappings.entries,
      Disjoint (⟨va, pa, rounded⟩ : Mapping).range entry.2.range := by
    intro entry hentry
    rw [Mapping.range, hnat]
    exact hdisjoint entry.2 (List.mem_map_of_mem hentry)
  refine ⟨?_, ?_, ?_⟩
  · intro entry hentry
    rcases OrdMap.mem_entries_insert.mp hentry with rfl | ⟨hold, _⟩
    · rfl
    · exact hwf.keyed entry hold
  · intro entry hentry
    rcases OrdMap.mem_entries_insert.mp hentry with rfl | ⟨hold, _⟩
    · exact hnew
    · exact hwf.valid entry hold
  · intro first hfirst second hsecond hne
    rcases OrdMap.mem_entries_insert.mp hfirst with rfl | ⟨hfirstOld, _⟩ <;>
      rcases OrdMap.mem_entries_insert.mp hsecond with rfl | ⟨hsecondOld, _⟩
    · exact absurd rfl hne
    · exact hapart second hsecondOld
    · exact (hapart first hfirstOld).symm
    · exact hwf.disjoint first hfirstOld second hsecondOld hne

theorem WellFormed.erase (hwf : WellFormed space) (va : UInt64) :
    WellFormed { space with mappings := space.mappings.erase va } :=
  ⟨fun entry hentry => hwf.keyed entry (OrdMap.mem_entries_erase.mp hentry).1,
    fun entry hentry => hwf.valid entry (OrdMap.mem_entries_erase.mp hentry).1,
    fun first hfirst second hsecond =>
      hwf.disjoint first (OrdMap.mem_entries_erase.mp hfirst).1 second
        (OrdMap.mem_entries_erase.mp hsecond).1⟩

theorem step_wellFormed (state : AddressSpace × Pmm.State) (event : Event)
    (next : AddressSpace × Pmm.State) (hwf : WellFormed state.1) (step : Step state event next) :
    WellFormed next.1 := by
  cases step with
  | map space pmm va pa len =>
    rcases map_cases space pmm va pa len with ⟨e, heq, _⟩ | ⟨rounded, root, pmm', hcheck, _, heq⟩
    · rw [heq]
      exact hwf
    · rw [heq]
      exact hwf.insert hcheck root
  | unmap space pmm va => exact hwf.erase va
  | frames space _ => exact hwf

theorem run_wellFormed {pmm₀ pmm : Pmm.State} {events : List Event}
    (run : Run Step (AddressSpace.newUnmaterialised, pmm₀) events (space, pmm)) :
    WellFormed space :=
  run.invariant (fun state => WellFormed state.1) wellFormed_newUnmaterialised step_wellFormed

/-- **Reachable address spaces are well formed, and `map` admits exactly the
requests it should.**  A refused request leaves the address space and the
allocator exactly as they were. -/
theorem reachable_map (pmm₀ pmm : Pmm.State) (space : AddressSpace) (events : List Event)
    (run : Run Step (AddressSpace.newUnmaterialised, pmm₀) events (space, pmm)) :
    WellFormed space ∧
      ∀ va pa len : UInt64,
        ((space.map pmm va pa len).1 = .ok () ↔
          0 < len.toNat ∧ len.toNat + 4095 < 2 ^ 64 ∧ va.toNat % 4096 = 0 ∧ pa.toNat % 4096 = 0 ∧
            va.toNat + roundUp len.toNat < 2 ^ 64 ∧
            (∀ mapping ∈ space.mappings.values,
              Disjoint (Set.Ico va.toNat (va.toNat + roundUp len.toNat)) mapping.range) ∧
            (space.root ≠ 0 ∨ HasFreeFrame pmm)) ∧
          ∀ e, (space.map pmm va pa len).1 = .error e →
            (space.map pmm va pa len).2 = (space, pmm) := by
  have hwf := run_wellFormed run
  refine ⟨hwf, fun va pa len => ⟨?_, ?_⟩⟩
  · have hchecks : (∃ rounded, space.checkMap va pa len = .ok rounded) ↔
        0 < len.toNat ∧ len.toNat + 4095 < 2 ^ 64 ∧ va.toNat % 4096 = 0 ∧ pa.toNat % 4096 = 0 ∧
          va.toNat + roundUp len.toNat < 2 ^ 64 ∧
          ∀ mapping ∈ space.mappings.values,
            Disjoint (Set.Ico va.toNat (va.toNat + roundUp len.toNat)) mapping.range := by
      constructor
      · rintro ⟨rounded, hok⟩
        obtain ⟨hpos, hfits, hva, hpa, _, hend, hdisjoint⟩ := (checkMap_eq_ok hwf).mp hok
        exact ⟨hpos, hfits, hva, hpa, hend, hdisjoint⟩
      · rintro ⟨hpos, hfits, hva, hpa, hend, hdisjoint⟩
        refine ⟨UInt64.ofNat (roundUp len.toNat), (checkMap_eq_ok hwf).mpr
          ⟨hpos, hfits, hva, hpa, ?_, hend, hdisjoint⟩⟩
        exact UInt64.toNat_ofNat_of_lt' (by rw [UInt64.size]; omega)
    rcases map_cases space pmm va pa len with ⟨e, heq, hrefused⟩ | ⟨rounded, _, _, hok, hroot, heq⟩
    · rw [heq, hchecks] at *
      simp only [reduceCtorEq, false_iff]
      rintro ⟨hpos, hfits, hva, hpa, hend, hdisjoint, hroot⟩
      exact hrefused ⟨⟨hpos, hfits, hva, hpa, hend, hdisjoint⟩, hroot⟩
    · obtain ⟨hpos, hfits, hva, hpa, hend, hdisjoint⟩ := hchecks.mp ⟨rounded, hok⟩
      simp only [heq, true_iff]
      exact ⟨hpos, hfits, hva, hpa, hend, hdisjoint, hroot⟩
  · intro e herr
    rcases map_cases space pmm va pa len with ⟨_, heq, _⟩ | ⟨_, _, _, _, _, heq⟩
    · rw [heq]
    · rw [heq] at herr
      exact absurd herr (by simp)

/-- The allocator with three free frames. -/
def smallPool : Pmm.State := Pmm.init Pmm.smallBank 0 Pmm.State.new

/-- After 100 bytes are mapped at `0x4000`, a request inside that page is refused
and the next page is still free. -/
theorem reachable_map_smallPool :
    let state := (AddressSpace.newUnmaterialised.map smallPool 0x4000 0x8000 100).2
    WellFormed state.1 ∧ (state.1.map state.2 0x4000 0 1).1 ≠ .ok () ∧
      (state.1.map state.2 0x5000 0 1).1 = .ok () := by
  have hrun := Run.nil.snoc (Step.map AddressSpace.newUnmaterialised smallPool 0x4000 0x8000 100)
  obtain ⟨hwf, hmap⟩ := reachable_map smallPool _ _ _ hrun
  refine ⟨hwf, fun hok => ?_, rfl⟩
  obtain ⟨_, _, _, _, _, hdisjoint, _⟩ := (hmap 0x4000 0 1).1.mp hok
  have hmem : (⟨0x4000, 0x8000, 0x1000⟩ : Mapping) ∈
      (AddressSpace.newUnmaterialised.map smallPool 0x4000 0x8000 100).2.1.mappings.values := by
    decide +kernel
  refine Set.disjoint_left.mp (hdisjoint _ hmem) ?_ (?_ : 0x4000 ∈ _)
  · exact ⟨by decide, by decide⟩
  · exact ⟨by decide, by decide⟩

end Hyperion.Mm.Vmm
