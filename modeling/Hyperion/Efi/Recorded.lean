import Hyperion.Efi.LargestRun

/-!
# The bytes that are recorded

The firmware's descriptors are entered one after another.  A descriptor of conventional memory
that ends below 2^64 adds its bytes to those of the regions and no others, or it is dropped and
changes nothing.  The bytes that the kernel takes for memory are therefore conventional memory,
whatever the order of the descriptors.
-/

namespace Hyperion.Efi

open Hyperion.Lib

/-! ## Bytes -/

/-- The bytes of a descriptor. -/
def EfiMemoryDescriptor.bytes (desc : EfiMemoryDescriptor) : Set ℕ :=
  Set.Ico desc.physicalStart.toNat (desc.physicalStart.toNat + 4096 * desc.numberOfPages.toNat)

/-- The bytes that the block offers as memory. -/
def EfiHandoff.covered (handoff : EfiHandoff) : Set ℕ :=
  Coalesce.coverAll HandoffMemoryRegion.bytes handoff.regions

namespace EfiMemoryDescriptor

def Conventional (desc : EfiMemoryDescriptor) : Prop := desc.typ = efiConventionalMemory

/-- The descriptor ends below 2^64. -/
def Fits (desc : EfiMemoryDescriptor) : Prop :=
  desc.physicalStart.toNat + 4096 * desc.numberOfPages.toNat < 2 ^ 64

instance (desc : EfiMemoryDescriptor) : Decidable desc.Conventional :=
  inferInstanceAs (Decidable (_ = _))

instance (desc : EfiMemoryDescriptor) : Decidable desc.Fits := inferInstanceAs (Decidable (_ < _))

/-- Conventional memory that has pages, and the regions are the same without it. -/
structure Dropped (desc : EfiMemoryDescriptor) (before after : EfiHandoff) : Prop where
  conventional : desc.Conventional
  pages_ne : desc.numberOfPages ≠ 0
  regions_eq : after.regions = before.regions

end EfiMemoryDescriptor

/-! ## One descriptor -/

namespace EfiMemoryDescriptor

variable {desc : EfiMemoryDescriptor}

theorem Fits.toNat_size (hfits : desc.Fits) :
    (saturatingMul64 desc.numberOfPages efiPageSize).toNat = 4096 * desc.numberOfPages.toNat := by
  have hlt : desc.physicalStart.toNat + 4096 * desc.numberOfPages.toNat < 2 ^ 64 := hfits
  have hpage : efiPageSize.toNat = 4096 := rfl
  rw [saturatingMul64, hpage, if_pos (by omega), UInt64.toNat_mul, hpage, Nat.mul_comm]
  exact Nat.mod_eq_of_lt (by omega)

/-- What is entered for a descriptor of conventional memory. -/
theorem conventional_of_pages (hfits : desc.Fits) (hconventional : desc.Conventional)
    (hpages : desc.numberOfPages ≠ 0) :
    ∃ region : HandoffMemoryRegion, desc.conventional? = some region ∧ region.Fits ∧
      region.base = desc.physicalStart ∧ region.bytes = desc.bytes := by
  have hsize := hfits.toNat_size
  have hlt : desc.physicalStart.toNat + 4096 * desc.numberOfPages.toNat < 2 ^ 64 := hfits
  have hpos : desc.numberOfPages.toNat ≠ 0 := fun hzero => hpages (UInt64.toNat_inj.mp hzero)
  have hne : saturatingMul64 desc.numberOfPages efiPageSize ≠ 0 := by
    intro hzero
    rw [hzero] at hsize
    simp at hsize
    omega
  refine ⟨⟨desc.physicalStart, saturatingMul64 desc.numberOfPages efiPageSize⟩,
    if_pos ⟨hconventional, hne⟩, ⟨?_, ?_⟩, rfl, ?_⟩
  · dsimp only
    omega
  · dsimp only
    omega
  · rw [HandoffMemoryRegion.bytes, bytes, hsize]

/-- Nothing is entered for another one. -/
theorem conventional_eq_none (hother : ¬(desc.Conventional ∧ desc.numberOfPages ≠ 0)) :
    desc.conventional? = none := by
  refine if_neg fun hboth => hother ⟨hboth.1, fun hzero => hboth.2 ?_⟩
  rw [hzero]
  rfl

theorem bytes_eq_empty (hzero : desc.numberOfPages = 0) : desc.bytes = ∅ := by
  rw [bytes, hzero]
  exact Set.Ico_self _

end EfiMemoryDescriptor

/-- What entering a descriptor does. -/
structure EfiHandoff.Enters (before : EfiHandoff) (desc : EfiMemoryDescriptor)
    (after : EfiHandoff) : Prop where
  listed : after.Listed
  fits : ∀ region ∈ after.regions, region.Fits
  covered_iff : ∀ addr, addr ∈ after.covered ↔
    addr ∈ before.covered ∨ desc.Conventional ∧ ¬desc.Dropped before after ∧ addr ∈ desc.bytes
  dropped : desc.Dropped before after → before.regions.length = maxMemoryRegions ∧
    ∀ last ∈ before.regions.getLast?,
      last.base.toNat + last.size.toNat ≠ desc.physicalStart.toNat
  disjoint : before.regions.Pairwise (fun first second => Disjoint first.bytes second.bytes) →
    (desc.Conventional → Disjoint before.covered desc.bytes) →
    after.regions.Pairwise fun first second => Disjoint first.bytes second.bytes

namespace EfiHandoff

variable {before after : EfiHandoff} {desc : EfiMemoryDescriptor}

/-- A descriptor that is not entered. -/
theorem enters_of_regions_eq (hlisted : after.Listed)
    (hregions : ∀ region ∈ before.regions, region.Fits)
    (hother : ¬(desc.Conventional ∧ desc.numberOfPages ≠ 0))
    (hsame : after.regions = before.regions) : before.Enters desc after := by
  refine ⟨hlisted, hsame ▸ hregions, ?_, ?_, ?_⟩
  · intro addr
    rw [covered, covered, hsame]
    refine ⟨.inl, ?_⟩
    rintro (hold | ⟨hconventional, _, hnew⟩)
    · exact hold
    · have hzero : desc.numberOfPages = 0 := by
        by_contra hne
        exact hother ⟨hconventional, hne⟩
      rw [EfiMemoryDescriptor.bytes_eq_empty hzero] at hnew
      exact absurd hnew (Set.notMem_empty addr)
  · intro hdropped
    exact absurd ⟨hdropped.conventional, hdropped.pages_ne⟩ hother
  · intro hpairwise _
    rwa [hsame]

/-- A descriptor that is entered as `region`. -/
theorem enters_of_push {region : HandoffMemoryRegion} (hbefore : before.Listed)
    (hlisted : after.Listed) (hregions : ∀ region ∈ before.regions, region.Fits)
    (hconventional : desc.Conventional) (hpages : desc.numberOfPages ≠ 0) (hfits : region.Fits)
    (hbase : region.base = desc.physicalStart) (hbytes : region.bytes = desc.bytes)
    (hpush : after.regions = pushRegions before.regions [region]) : before.Enters desc after := by
  have hpush : after.regions = Coalesce.push HandoffMemoryRegion.adjacent HandoffMemoryRegion.merge
      maxMemoryRegions before.regions region := hpush
  have hdropped : desc.Dropped before after → maxMemoryRegions ≤ before.regions.length ∧
      ∀ last ∈ before.regions.getLast?, last.adjacent region = false := by
    intro hdropped
    apply Coalesce.full_of_push_eq_self _ (hpush.symm.trans hdropped.regions_eq)
    intro last hlast hadjacent hsame
    -- the last region would have grown
    have hsize := (hregions last (List.mem_of_getLast? hlast)).toNat_size_merge hfits hadjacent
    rw [hsame] at hsize
    have := hfits.size_pos
    omega
  refine ⟨hlisted, ?_, ?_, ?_, ?_⟩
  · rw [hpush]
    exact Coalesce.forall_fits_push HandoffMemoryRegion.fits_merge hregions hfits
  · intro addr
    by_cases hdrop : desc.Dropped before after
    · rw [covered, covered, hdrop.regions_eq]
      simp [hdrop]
    · rcases Coalesce.coverAll_push HandoffMemoryRegion.fits_merge maxMemoryRegions hregions hfits
        with hcover | ⟨_, _, hself⟩
      · rw [covered, hpush, hcover, hbytes]
        simp [hdrop, hconventional, covered]
      · exact absurd ⟨hconventional, hpages, hpush.trans hself⟩ hdrop
  · intro hdrop
    obtain ⟨hfull, hapart⟩ := hdropped hdrop
    refine ⟨?_, ?_⟩
    · have := hbefore.length_regions
      have := hbefore.len_le
      omega
    · intro last hlast hmeet
      have hadjacent := (hregions last (List.mem_of_getLast? hlast)).adjacent_iff.mpr
        (hmeet.trans (congrArg UInt64.toNat hbase.symm))
      rw [hapart last hlast] at hadjacent
      cases hadjacent
  · intro hpairwise hnew
    rw [hpush]
    apply Coalesce.pairwise_disjoint_push HandoffMemoryRegion.fits_merge hregions hfits hpairwise
    rw [hbytes]
    exact hnew hconventional

theorem enters_of_enter (hbefore : before.Listed)
    (hregions : ∀ region ∈ before.regions, region.Fits)
    (hfits : desc.Conventional → desc.Fits) (henter : enterDescriptor before desc = .ok after) :
    before.Enters desc after := by
  obtain ⟨_, hok, hlisted, _⟩ := hbefore.enter desc
  obtain rfl := Except.ok.inj (henter.symm.trans hok)
  have hafter := hbefore.regions_enter henter
  by_cases hentered : desc.Conventional ∧ desc.numberOfPages ≠ 0
  · obtain ⟨hconventional, hpages⟩ := hentered
    obtain ⟨region, hregion, hfit, hbase, hbytes⟩ :=
      EfiMemoryDescriptor.conventional_of_pages (hfits hconventional) hconventional hpages
    rw [hregion] at hafter
    exact enters_of_push hbefore hlisted hregions hconventional hpages hfit hbase hbytes hafter
  · rw [EfiMemoryDescriptor.conventional_eq_none hentered] at hafter
    exact enters_of_regions_eq hlisted hregions hentered hafter

end EfiHandoff

/-! ## The loop over the memory map -/

/-- The blocks of a run of the loop: `turns k` is the one before the descriptor at `k`. -/
def MemoryMapSnapshot.Turns (map : MemoryMapSnapshot) (turns : ℕ → EfiHandoff) : Prop :=
  ∀ (k : ℕ) (hk : k < map.descriptors.length),
    enterDescriptor (turns k) map.descriptors[k] = .ok (turns (k + 1))

/-- Two descriptors of conventional memory share no byte. -/
def EfiMemoryDescriptor.Apart (first second : EfiMemoryDescriptor) : Prop :=
  first.Conventional → second.Conventional → Disjoint first.bytes second.bytes

/-- What holds before every turn: the descriptors in front have been entered. -/
structure EnteredFront (map : MemoryMapSnapshot) (start : EfiHandoff) (state : ℕ × EfiHandoff) :
    Prop where
  filling : Filling start state
  front : ∃ k, state.1 = k * map.descSize ∧
    (map.descriptors.take k).foldlM enterDescriptor start = .ok state.2

theorem returns_descriptorTurn_front (map : MemoryMapSnapshot) {start : EfiHandoff}
    {state : ℕ × EfiHandoff} (hentered : EnteredFront map start state) :
    Returns (descriptorTurn map state)
      (TurnPost (EnteredFront map start) (fun state => map.size - state.1)
        (fun handoff => map.descriptors.foldlM enterDescriptor start = .ok handoff) state) := by
  obtain ⟨off, handoff⟩ := state
  obtain ⟨hfilling, k, rfl, hfront⟩ := hentered
  obtain ⟨turn, hturn, hpost⟩ := returns_descriptorTurn map hfilling
  refine ⟨turn, hturn, ?_⟩
  rcases MemoryMapSnapshot.descriptorTurn_cases hturn with
    ⟨hend, rfl⟩ | ⟨hk, next, henter, rfl⟩
  · rwa [List.take_of_length_le hend] at hfront
  · refine ⟨⟨hpost.1, k + 1, rfl, ?_⟩, hpost.2⟩
    rw [List.take_succ_eq_append_getElem hk, List.foldlM_append, hfront]
    exact bind_eq_ok.mpr ⟨handoff, rfl, bind_eq_ok.mpr ⟨next, henter, rfl⟩⟩

section Turns

variable {map : MemoryMapSnapshot} {turns : ℕ → EfiHandoff} {k : ℕ}

/-- The bytes of the first `k` descriptors that are conventional memory and not dropped. -/
def kept (map : MemoryMapSnapshot) (turns : ℕ → EfiHandoff) (k : ℕ) : Set ℕ :=
  {addr | ∃ (j : ℕ) (hj : j < map.descriptors.length), j < k ∧ map.descriptors[j].Conventional ∧
    ¬map.descriptors[j].Dropped (turns j) (turns (j + 1)) ∧ addr ∈ map.descriptors[j].bytes}

/-- What holds of the block before the descriptor at `k`. -/
structure Recorded (map : MemoryMapSnapshot) (turns : ℕ → EfiHandoff) (k : ℕ) : Prop where
  listed : (turns k).Listed
  fits : ∀ region ∈ (turns k).regions, region.Fits
  covered_eq : (turns k).covered = kept map turns k
  disjoint : map.descriptors.Pairwise EfiMemoryDescriptor.Apart →
    (turns k).regions.Pairwise fun first second => Disjoint first.bytes second.bytes

theorem kept_succ (hk : k < map.descriptors.length) (addr : ℕ) : addr ∈ kept map turns (k + 1) ↔
    addr ∈ kept map turns k ∨ map.descriptors[k].Conventional ∧
      ¬map.descriptors[k].Dropped (turns k) (turns (k + 1)) ∧ addr ∈ map.descriptors[k].bytes := by
  constructor
  · rintro ⟨j, hj, hlt, hkept⟩
    rcases Nat.lt_succ_iff_lt_or_eq.mp hlt with hlt | rfl
    · exact .inl ⟨j, hj, hlt, hkept⟩
    · exact .inr hkept
  · rintro (⟨j, hj, hlt, hkept⟩ | hkept)
    · exact ⟨j, hj, Nat.lt_succ_of_lt hlt, hkept⟩
    · exact ⟨k, hk, Nat.lt_succ_self k, hkept⟩

theorem Recorded.enters (hrecorded : Recorded map turns k)
    (hfits : ∀ desc ∈ map.descriptors, desc.Conventional → desc.Fits) (hturns : map.Turns turns)
    (hk : k < map.descriptors.length) :
    (turns k).Enters map.descriptors[k] (turns (k + 1)) :=
  EfiHandoff.enters_of_enter hrecorded.listed hrecorded.fits
    (hfits _ (List.getElem_mem hk)) (hturns k hk)

theorem recorded (hstart : (turns 0).Listed) (hempty : (turns 0).regions = [])
    (hfits : ∀ desc ∈ map.descriptors, desc.Conventional → desc.Fits) (hturns : map.Turns turns)
    (hk : k ≤ map.descriptors.length) : Recorded map turns k := by
  induction k with
  | zero =>
    refine ⟨hstart, by simp [hempty], ?_, by simp [hempty]⟩
    ext addr
    simp [EfiHandoff.covered, Coalesce.coverAll, hempty, kept]
  | succ k ih =>
    have hrecorded := ih (Nat.le_of_succ_le hk)
    obtain ⟨hlisted, hfit, hcovered, _, hdisjoint⟩ := hrecorded.enters hfits hturns hk
    refine ⟨hlisted, hfit, ?_, ?_⟩
    · ext addr
      rw [hcovered, hrecorded.covered_eq, kept_succ hk]
    · intro hapart
      refine hdisjoint (hrecorded.disjoint hapart) fun hconventional => ?_
      rw [hrecorded.covered_eq, Set.disjoint_left]
      rintro addr ⟨j, hj, hlt, hearlier, _, hold⟩ hnew
      have hpair := List.pairwise_iff_getElem.mp hapart j k hj hk hlt hearlier hconventional
      exact Set.disjoint_left.mp hpair hold hnew

/-- A region has a byte. -/
theorem Recorded.kept_nonempty (hrecorded : Recorded map turns k) (hne : (turns k).regions ≠ []) :
    (kept map turns k).Nonempty := by
  obtain ⟨region, hregion⟩ := List.exists_mem_of_ne_nil _ hne
  rw [← hrecorded.covered_eq]
  refine ⟨region.base.toNat, region, hregion, Set.left_mem_Ico.mpr ?_⟩
  exact Nat.lt_add_of_pos_right (hrecorded.fits region hregion).size_pos

/-- If there is conventional memory, some of it is recorded. -/
theorem regions_ne_nil (hrecorded : ∀ k ≤ map.descriptors.length, Recorded map turns k)
    (hfits : ∀ desc ∈ map.descriptors, desc.Conventional → desc.Fits) (hturns : map.Turns turns)
    (hsome : ∃ desc ∈ map.descriptors, desc.Conventional ∧ desc.numberOfPages ≠ 0) :
    (turns map.descriptors.length).regions ≠ [] := by
  obtain ⟨desc, hdesc, hconventional, hpages⟩ := hsome
  obtain ⟨k, hk, rfl⟩ := List.getElem_of_mem hdesc
  have hkept : (kept map turns map.descriptors.length).Nonempty := by
    by_cases hdropped : map.descriptors[k].Dropped (turns k) (turns (k + 1))
    · -- eight regions are there already
      obtain ⟨hfull, _⟩ := ((hrecorded k hk.le).enters hfits hturns hk).dropped hdropped
      have hne : (turns k).regions ≠ [] := by
        intro hnil
        rw [hnil] at hfull
        cases hfull
      obtain ⟨addr, j, hj, _, hearlier⟩ := (hrecorded k hk.le).kept_nonempty hne
      exact ⟨addr, j, hj, hj, hearlier⟩
    · have hpos : 0 < map.descriptors[k].numberOfPages.toNat :=
        Nat.pos_of_ne_zero fun hzero => hpages (UInt64.toNat_inj.mp hzero)
      refine ⟨map.descriptors[k].physicalStart.toNat, k, hk, hk, hconventional, hdropped,
        Set.left_mem_Ico.mpr ?_⟩
      omega
  intro hnil
  rw [← (hrecorded _ (le_refl _)).covered_eq, EfiHandoff.covered, hnil] at hkept
  obtain ⟨_, _, hmem, _⟩ := hkept
  cases hmem

end Turns

/-- The memory that the stub offers is the conventional memory that it did not drop. -/
theorem buildHandoff_recorded (arch : Arch) (map : MemoryMapSnapshot) (mode : GopMode)
    (fwTableAddr : UInt64)
    (hfits : ∀ desc ∈ map.descriptors, desc.Conventional → desc.Fits)
    (hsome : ∃ desc ∈ map.descriptors, desc.Conventional ∧ desc.numberOfPages ≠ 0) :
    ∃ turns : ℕ → EfiHandoff, turns 0 = emptyHandoff arch mode fwTableAddr ∧ map.Turns turns ∧
      buildHandoff arch map mode fwTableAddr = .ok (turns map.descriptors.length) ∧
      (turns map.descriptors.length).covered = kept map turns map.descriptors.length ∧
      (∀ (k : ℕ) (hk : k < map.descriptors.length),
        map.descriptors[k].Dropped (turns k) (turns (k + 1)) →
          (turns k).regions.length = maxMemoryRegions ∧
          ∀ last ∈ (turns k).regions.getLast?,
            last.base.toNat + last.size.toNat ≠ map.descriptors[k].physicalStart.toNat) ∧
      (map.descriptors.Pairwise EfiMemoryDescriptor.Apart →
        (turns map.descriptors.length).regions.Pairwise
          fun first second => Disjoint first.bytes second.bytes) := by
  have hempty : (emptyHandoff arch mode fwTableAddr).Listed :=
    ⟨by simp [emptyHandoff], Nat.zero_le _, by simp [EfiHandoff.regions, emptyHandoff]⟩
  have hloop : Returns (loop (descriptorTurn map) (map.size + 1)
      (0, emptyHandoff arch mode fwTableAddr)) fun handoff =>
        map.descriptors.foldlM enterDescriptor (emptyHandoff arch mode fwTableAddr) = .ok handoff :=
    returns_loop (fun state hentered => returns_descriptorTurn_front map hentered) _ _
      ⟨⟨Nat.zero_le _, hempty, EfiHandoff.Keeps.refl _⟩, 0, (Nat.zero_mul _).symm, rfl⟩
      (Nat.lt_succ_of_le (Nat.sub_le _ _))
  obtain ⟨handoff, hhandoff, hfold⟩ := hloop
  obtain ⟨turns, hstart, hlast, hturns⟩ := exists_states_of_foldlM hfold
  have hrecorded : ∀ k ≤ map.descriptors.length, Recorded map turns k :=
    fun k hk => recorded (hstart ▸ hempty) (hstart ▸ rfl) hfits hturns hk
  have hall := hrecorded _ (le_refl _)
  refine ⟨turns, hstart, hturns, ?_, hall.covered_eq, ?_, hall.disjoint⟩
  · have hlen : handoff.memoryLen ≠ 0 := by
      intro hzero
      apply regions_ne_nil hrecorded hfits hturns hsome
      rw [hlast, EfiHandoff.regions, hzero]
      rfl
    rw [buildHandoff, hhandoff, hlast]
    exact if_neg hlen
  · intro k hk hdropped
    exact ((hrecorded k hk.le).enters hfits hturns hk).dropped hdropped

theorem buildHandoff_recorded_third :
    ∃ turns : ℕ → EfiHandoff,
      buildHandoff .aarch64 bankThird bgrMode 0 = .ok (turns bankThird.descriptors.length) ∧
        (turns bankThird.descriptors.length).covered =
          kept bankThird turns bankThird.descriptors.length := by
  obtain ⟨turns, _, _, hbuild, hcovered, _⟩ :=
    buildHandoff_recorded .aarch64 bankThird bgrMode 0 (by decide +kernel) (by decide +kernel)
  exact ⟨turns, hbuild, hcovered⟩

end Hyperion.Efi
