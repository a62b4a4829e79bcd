import Hyperion.Efi.Handoff
import Hyperion.Lib.Coalesce

/-!
# Which memory reaches the kernel

The block has room for eight regions.  `push_memory_region` merges a descriptor into the
last region if it is adjacent to it, so that maximal runs of adjacent descriptors of
conventional memory become regions.  The runs are taken in the order of the memory map,
whatever their size: the first eight are in the block, and of the later ones those that
go on with the eighth.  The others are dropped.
-/

namespace Hyperion.Efi

open Hyperion.Lib Hyperion.Hal

/-! ## The conventional memory of a map -/

/-- The region of a descriptor, if it is conventional memory and not empty. -/
def EfiMemoryDescriptor.conventional? (desc : EfiMemoryDescriptor) : Option HandoffMemoryRegion :=
  let size := saturatingMul64 desc.numberOfPages efiPageSize
  if desc.typ = efiConventionalMemory ∧ size ≠ 0 then some ⟨desc.physicalStart, size⟩ else none

namespace HandoffMemoryRegion

/-- The second region begins where the first one ends. -/
def adjacent (first second : HandoffMemoryRegion) : Bool :=
  saturatingAdd first.base first.size == second.base

def merge (first second : HandoffMemoryRegion) : HandoffMemoryRegion :=
  { first with size := saturatingAdd first.size second.size }

/-- The region starts where it started and has not become smaller. -/
def Grows (before after : HandoffMemoryRegion) : Prop :=
  before.base = after.base ∧ before.size ≤ after.size

instance : IsPreorder HandoffMemoryRegion Grows where
  refl _ := ⟨rfl, le_refl _⟩
  trans _ _ _ hfirst hsecond := ⟨hfirst.1.trans hsecond.1, hfirst.2.trans hsecond.2⟩

end HandoffMemoryRegion

namespace MemoryMapSnapshot

/-- The descriptors of the map in their order. -/
def descriptors (map : MemoryMapSnapshot) : List EfiMemoryDescriptor :=
  (List.range (map.size / map.descSize)).map fun k => map.descriptor (k * map.descSize)

/-- The conventional memory that the firmware reports. -/
def conventional (map : MemoryMapSnapshot) : List HandoffMemoryRegion :=
  map.descriptors.filterMap EfiMemoryDescriptor.conventional?

/-- The maximal runs of adjacent descriptors of conventional memory. -/
def runs (map : MemoryMapSnapshot) : List (List HandoffMemoryRegion) :=
  map.conventional.splitBy HandoffMemoryRegion.adjacent

end MemoryMapSnapshot

/-- The number of bytes in a run. -/
def runBytes (run : List HandoffMemoryRegion) : ℕ := (run.map fun region => region.size.toNat).sum

/-- A run of the map that no other run exceeds. -/
structure MemoryMapSnapshot.LargestRun (map : MemoryMapSnapshot) (run : List HandoffMemoryRegion) :
    Prop where
  mem_runs : run ∈ map.runs
  largest : ∀ other ∈ map.runs, runBytes other ≤ runBytes run

/-- A region of the block contains the whole run.  The size of a region has 64 bits. -/
def EfiHandoff.Presents (handoff : EfiHandoff) (run : List HandoffMemoryRegion) : Prop :=
  ∃ region ∈ handoff.regions, ∃ first ∈ run.head?, region.base.toNat ≤ first.base.toNat ∧
    min (first.base.toNat - region.base.toNat + runBytes run) (2 ^ 64 - 1) ≤ region.size.toNat

/-! ## Regions as coalesced runs -/

namespace HandoffMemoryRegion

/-- A merged region ends where its second part ends. -/
theorem adjacent_merge (a b c : HandoffMemoryRegion) (hadjacent : a.adjacent b = true) :
    (a.merge b).adjacent c = b.adjacent c := by
  have hstart : saturatingAdd a.base a.size = b.base := beq_iff_eq.mp hadjacent
  have hend : saturatingAdd a.base (saturatingAdd a.size b.size) = saturatingAdd b.base b.size := by
    rw [← hstart, ← UInt64.toNat_inj]
    simp only [toNat_saturatingAdd]
    omega
  unfold adjacent merge
  rw [hend]

theorem grows_merge (a b : HandoffMemoryRegion) : Grows a (a.merge b) := by
  refine ⟨rfl, ?_⟩
  show a.size ≤ saturatingAdd a.size b.size
  rw [UInt64.le_iff_toNat_le, toNat_saturatingAdd]
  have := a.size.toNat_lt
  omega

theorem foldl_merge (run : List HandoffMemoryRegion) (first : HandoffMemoryRegion) :
    (run.foldl merge first).base = first.base ∧
      (run.foldl merge first).size.toNat =
        min (first.size.toNat + runBytes run) (2 ^ 64 - 1) := by
  induction run generalizing first with
  | nil =>
    have := first.size.toNat_lt
    exact ⟨rfl, by simp [runBytes]; omega⟩
  | cons region run ih =>
    obtain ⟨hbase, hsize⟩ := ih (first.merge region)
    refine ⟨hbase, ?_⟩
    have hmerged : (first.merge region).size.toNat =
        min (first.size.toNat + region.size.toNat) (2 ^ 64 - 1) := toNat_saturatingAdd _ _
    rw [List.foldl_cons, hsize, hmerged, runBytes, runBytes, List.map_cons, List.sum_cons]
    omega

/-- The bytes of a region. -/
def bytes (region : HandoffMemoryRegion) : Set ℕ :=
  Set.Ico region.base.toNat (region.base.toNat + region.size.toNat)

/-- The region is not empty and ends below 2^64. -/
structure Fits (region : HandoffMemoryRegion) : Prop where
  size_pos : 0 < region.size.toNat
  end_lt : region.base.toNat + region.size.toNat < 2 ^ 64

variable {first second : HandoffMemoryRegion}

theorem Fits.adjacent_iff (hfits : first.Fits) : first.adjacent second = true ↔
    first.base.toNat + first.size.toNat = second.base.toNat := by
  have hlt := hfits.end_lt
  rw [adjacent, beq_iff_eq, ← UInt64.toNat_inj, toNat_saturatingAdd]
  omega

theorem Fits.toNat_size_merge (hfirst : first.Fits) (hsecond : second.Fits)
    (hadjacent : first.adjacent second = true) :
    (first.merge second).size.toNat = first.size.toNat + second.size.toNat := by
  have hmeet := hfirst.adjacent_iff.mp hadjacent
  have hlt := hsecond.end_lt
  rw [merge, toNat_saturatingAdd]
  omega

/-- Two adjacent regions become one without a gap. -/
theorem fits_merge (first second : HandoffMemoryRegion) (hfirst : first.Fits)
    (hsecond : second.Fits) (hadjacent : first.adjacent second = true) :
    (first.merge second).Fits ∧ (first.merge second).bytes = first.bytes ∪ second.bytes := by
  have hmeet := hfirst.adjacent_iff.mp hadjacent
  have hsize := hfirst.toNat_size_merge hsecond hadjacent
  have hlt := hsecond.end_lt
  have hbase : (first.merge second).base = first.base := rfl
  refine ⟨⟨?_, ?_⟩, ?_⟩
  · have := hfirst.size_pos
    omega
  · rw [hbase]
    omega
  · rw [bytes, bytes, bytes, hbase, hsize, ← hmeet, Set.Ico_union_Ico_eq_Ico, Nat.add_assoc]
    · omega
    · omega

end HandoffMemoryRegion

/-- The list that the regions of the map are entered into. -/
def pushRegions (kept regions : List HandoffMemoryRegion) : List HandoffMemoryRegion :=
  Coalesce.pushAll HandoffMemoryRegion.adjacent HandoffMemoryRegion.merge maxMemoryRegions kept
    regions

namespace MemoryMapSnapshot

/-- The run is one of the first eight, or it goes on with the eighth: it begins where that one
ends, or where a later descriptor ends that goes on with it. -/
def Takes (map : MemoryMapSnapshot) (run : List HandoffMemoryRegion) : Prop :=
  run ∈ map.runs.take maxMemoryRegions ∨
    ∃ before after, map.runs = before ++ run :: after ∧
      ∃ last ∈ (before.take maxMemoryRegions).flatten.getLast?, ∃ first ∈ run.head?,
        (Coalesce.follow HandoffMemoryRegion.adjacent last
          (before.drop maxMemoryRegions).flatten).adjacent first = true

/-- The conventional memory ends below 2^64, and no two descriptors of it overlap. -/
structure Separate (map : MemoryMapSnapshot) : Prop where
  fits : ∀ region ∈ map.conventional, region.Fits
  disjoint : map.conventional.Pairwise fun first second => Disjoint first.bytes second.bytes

end MemoryMapSnapshot

/-! ## What the stub enters -/

namespace EfiHandoff

variable {handoff next : EfiHandoff} {base size : UInt64}

theorem Listed.length_regions (hlisted : handoff.Listed) :
    handoff.regions.length = handoff.memoryLen.toNat := by
  rw [regions, List.length_take, hlisted.length_memory]
  exact Nat.min_eq_left hlisted.len_le

/-- The regions after the one at `n` is set and made the last one. -/
theorem take_set_succ (memory : List HandoffMemoryRegion) {n : ℕ} (hlt : n < memory.length)
    (region : HandoffMemoryRegion) :
    (memory.set n region).take (n + 1) = memory.take n ++ [region] := by
  rw [List.take_add_one, List.take_set_of_le (le_refl _), List.getElem?_set_self hlt]
  rfl

theorem Listed.regions_append (hlisted : handoff.Listed)
    (happend : appendRegion handoff base size = .ok next) :
    next.regions = if handoff.regions.length < maxMemoryRegions then
      handoff.regions ++ [⟨base, size⟩] else handoff.regions := by
  rw [hlisted.length_regions]
  unfold appendRegion at happend
  split at happend
  case isTrue hroom =>
    have hlt : handoff.memoryLen.toNat < handoff.memory.length := by
      rw [hlisted.length_memory]
      exact hroom
    rw [setIndex_of_lt _ hlt] at happend
    obtain rfl := Except.ok.inj happend
    have hsucc : (handoff.memoryLen + 1).toNat = handoff.memoryLen.toNat + 1 := by
      rw [UInt32.toNat_add]
      rw [maxMemoryRegions] at hroom
      exact Nat.mod_eq_of_lt (by show handoff.memoryLen.toNat + 1 < 2 ^ 32; omega)
    rw [if_pos hroom, regions, hsucc, take_set_succ _ hlt]
    rfl
  case isFalse hfull =>
    obtain rfl := Except.ok.inj happend
    rw [if_neg hfull]

/-- `push_memory_region` on the list of regions. -/
theorem Listed.regions_push (hlisted : handoff.Listed) (hsize : size ≠ 0)
    (hpush : pushMemoryRegion handoff base size = .ok next) :
    next.regions = pushRegions handoff.regions [⟨base, size⟩] := by
  unfold pushMemoryRegion at hpush
  rw [if_neg hsize] at hpush
  unfold pushRegions Coalesce.pushAll
  rw [List.foldl_cons, List.foldl_nil]
  split at hpush
  case isFalse hempty =>
    have hnil : handoff.regions = [] := by
      rw [← List.length_eq_zero_iff, hlisted.length_regions]
      omega
    rw [hlisted.regions_append hpush]
    simp [Coalesce.push, hnil, maxMemoryRegions]
  case isTrue hpos =>
    obtain ⟨n, hn⟩ : ∃ n, handoff.memoryLen.toNat = n + 1 := ⟨handoff.memoryLen.toNat - 1, by omega⟩
    have hlast : n < handoff.memory.length := by
      have := hlisted.len_le
      rw [hlisted.length_memory]
      omega
    have hregions : handoff.regions = handoff.memory.take n ++ [handoff.memory[n]] := by
      rw [regions, hn, List.take_add_one, List.getElem?_eq_getElem hlast]
      rfl
    rw [hn, Nat.add_sub_cancel, index_of_lt hlast] at hpush
    generalize handoff.memory[n] = prev at *
    replace hpush : (if saturatingAdd prev.base prev.size = base then _ else _) = _ := hpush
    split at hpush
    case isTrue hadjacent =>
      have htrue : prev.adjacent ⟨base, size⟩ = true := beq_iff_eq.mpr hadjacent
      rw [setIndex_of_lt _ hlast] at hpush
      obtain rfl := Except.ok.inj hpush
      rw [hregions, Coalesce.push_of_adjacent htrue, regions, hn, take_set_succ _ hlast]
      rfl
    case isFalse hapart =>
      have hfalse : prev.adjacent ⟨base, size⟩ = false := beq_eq_false_iff_ne.mpr hapart
      rw [hlisted.regions_append hpush, hregions]
      simp [Coalesce.push, hfalse]

theorem Listed.regions_enter (hlisted : handoff.Listed) {desc : EfiMemoryDescriptor}
    (henter : enterDescriptor handoff desc = .ok next) :
    next.regions = pushRegions handoff.regions desc.conventional?.toList := by
  unfold enterDescriptor at henter
  unfold EfiMemoryDescriptor.conventional?
  by_cases htype : desc.typ = efiConventionalMemory
  · rw [if_pos htype] at henter
    by_cases hsize : saturatingMul64 desc.numberOfPages efiPageSize = 0
    · rw [pushMemoryRegion, if_pos hsize] at henter
      obtain rfl := Except.ok.inj henter
      simp [hsize, pushRegions, Coalesce.pushAll]
    · rw [hlisted.regions_push hsize henter]
      simp [htype, hsize]
  · rw [if_neg htype] at henter
    obtain rfl := Except.ok.inj henter
    simp [htype, pushRegions, Coalesce.pushAll]

end EfiHandoff

/-! ## The loop over the memory map -/

theorem pushRegions_append (kept first second : List HandoffMemoryRegion) :
    pushRegions kept (first ++ second) = pushRegions (pushRegions kept first) second :=
  Coalesce.pushAll_append kept first second

namespace MemoryMapSnapshot

variable {map : MemoryMapSnapshot} {k : ℕ}

theorem length_descriptors (map : MemoryMapSnapshot) :
    map.descriptors.length = map.size / map.descSize := by
  rw [descriptors, List.length_map, List.length_range]

/-- The loop goes on while there are descriptors. -/
theorem inside_iff (map : MemoryMapSnapshot) (k : ℕ) :
    k * map.descSize + descriptorSize ≤ map.size ↔ k < map.descriptors.length := by
  have hge : descriptorSize ≤ map.descSize := map.descSize_ge
  have hpos : 0 < descriptorSize := by decide
  rw [length_descriptors]
  nth_rewrite 1 [← Nat.div_mul_cancel map.descSize_dvd]
  constructor
  · intro hinside
    by_contra hge
    have := Nat.mul_le_mul_right map.descSize (Nat.le_of_not_lt hge)
    omega
  · intro hlt
    have := Nat.mul_le_mul_right map.descSize (Nat.succ_le_of_lt hlt)
    rw [Nat.succ_mul] at this
    omega

theorem getElem_descriptors (hlt : k < map.descriptors.length) :
    map.descriptors[k] = map.descriptor (k * map.descSize) := by
  simp [descriptors]

/-- A turn enters the next descriptor, if there is one. -/
theorem descriptorTurn_cases {handoff : EfiHandoff} {turn : Turn (ℕ × EfiHandoff) EfiHandoff}
    (hturn : descriptorTurn map (k * map.descSize, handoff) = .ok turn) :
    map.descriptors.length ≤ k ∧ turn = .leave handoff ∨
      ∃ (hk : k < map.descriptors.length) (next : EfiHandoff),
        enterDescriptor handoff map.descriptors[k] = .ok next ∧
          turn = .again ((k + 1) * map.descSize, next) := by
  obtain ⟨stop, hstop, hturn⟩ := bind_eq_ok.mp hturn
  obtain ⟨_, rfl⟩ := addUsize_eq_ok.mp hstop
  split at hturn
  case isFalse houtside =>
    rw [map.inside_iff, not_lt] at houtside
    exact .inl ⟨houtside, (Except.ok.inj hturn).symm⟩
  case isTrue hinside =>
    obtain ⟨next, henter, hagain⟩ := bind_eq_ok.mp hturn
    have hlt := (map.inside_iff k).mp hinside
    refine .inr ⟨hlt, next, ?_, ?_⟩
    · rw [getElem_descriptors hlt]
      exact henter
    · rw [← Except.ok.inj hagain, saturatingAddUsize_descSize map hinside, Nat.succ_mul]

end MemoryMapSnapshot

/-- What holds before every turn: entering the descriptors that are left gives what
entering all of them gives. -/
structure Entering (map : MemoryMapSnapshot) (start : EfiHandoff) (state : ℕ × EfiHandoff) :
    Prop where
  filling : Filling start state
  rest : ∃ k, state.1 = k * map.descSize ∧
    pushRegions state.2.regions
      ((map.descriptors.drop k).filterMap EfiMemoryDescriptor.conventional?) =
        pushRegions [] map.conventional

theorem returns_descriptorTurn_entering (map : MemoryMapSnapshot) {start : EfiHandoff}
    {state : ℕ × EfiHandoff} (hentering : Entering map start state) :
    Returns (descriptorTurn map state)
      (TurnPost (Entering map start) (fun state => map.size - state.1)
        (fun handoff => handoff.regions = pushRegions [] map.conventional) state) := by
  obtain ⟨off, handoff⟩ := state
  obtain ⟨hfilling, k, rfl, hrest⟩ := hentering
  obtain ⟨turn, hturn, hpost⟩ := returns_descriptorTurn map hfilling
  refine ⟨turn, hturn, ?_⟩
  rcases MemoryMapSnapshot.descriptorTurn_cases hturn with
    ⟨hend, rfl⟩ | ⟨hk, next, henter, rfl⟩
  · rw [List.drop_of_length_le hend] at hrest
    exact hrest
  · refine ⟨⟨hpost.1, k + 1, rfl, ?_⟩, hpost.2⟩
    rw [List.drop_eq_getElem_cons hk, ← List.singleton_append, List.filterMap_append,
      pushRegions_append] at hrest
    rw [hfilling.listed.regions_enter henter, ← hrest]
    cases hdesc : map.descriptors[k].conventional? <;> simp [hdesc]

theorem MemoryMapSnapshot.flatten_runs (map : MemoryMapSnapshot) :
    map.runs.flatten = map.conventional := List.flatten_splitBy _ _

theorem MemoryMapSnapshot.exists_cons {map : MemoryMapSnapshot} {run : List HandoffMemoryRegion}
    (hmem : run ∈ map.runs) : ∃ first rest, run = first :: rest := by
  apply List.exists_cons_of_ne_nil
  rintro rfl
  exact List.nil_notMem_splitBy _ _ hmem

/-- The regions of the block, for a map with conventional memory. -/
theorem returns_buildHandoff_regions (arch : Arch) (map : MemoryMapSnapshot) (mode : GopMode)
    (fwTableAddr : UInt64) (hruns : map.conventional ≠ []) :
    Returns (buildHandoff arch map mode fwTableAddr) fun handoff =>
      handoff.regions = pushRegions [] map.conventional := by
  have hempty : (emptyHandoff arch mode fwTableAddr).Listed :=
    ⟨by simp [emptyHandoff], Nat.zero_le _, nofun⟩
  have hloop : Returns (loop (descriptorTurn map) (map.size + 1)
      (0, emptyHandoff arch mode fwTableAddr)) fun handoff =>
        handoff.regions = pushRegions [] map.conventional :=
    returns_loop (fun state hentering => returns_descriptorTurn_entering map hentering) _ _
      ⟨⟨Nat.zero_le _, hempty, EfiHandoff.Keeps.refl _⟩, 0, (Nat.zero_mul _).symm, rfl⟩
      (Nat.lt_succ_of_le (Nat.sub_le _ _))
  apply hloop.bind
  intro handoff hregions
  split
  case isFalse => exact returns_pure hregions
  case isTrue hzero =>
    -- at least one region has been entered
    have hnil : handoff.regions = [] := by rw [EfiHandoff.regions, hzero]; rfl
    obtain ⟨first, rest, hcons⟩ := List.exists_cons_of_ne_nil hruns
    have hlength : [first].length ≤ (pushRegions [first] rest).length :=
      Coalesce.length_le_pushAll rest
    rw [hnil, hcons] at hregions
    replace hregions : [] = pushRegions [first] rest := hregions
    rw [← hregions] at hlength
    cases hlength

/-! ## Which runs are in the block -/

section Presents

variable {map : MemoryMapSnapshot} {handoff : EfiHandoff} {first : HandoffMemoryRegion}
  {run : List HandoffMemoryRegion} {before after : List (List HandoffMemoryRegion)}

/-- The regions when all in front of a run has been entered, and what is entered then. -/
theorem pushRegions_split (hsplit : map.runs = before ++ (first :: run) :: after) :
    pushRegions [] map.conventional =
      pushRegions (pushRegions [] before.flatten) (first :: run ++ after.flatten) := by
  rw [← map.flatten_runs, hsplit, List.flatten_append, List.flatten_cons, pushRegions_append]

/-- A run whose first descriptor is taken is contained in a region. -/
theorem presents_of_takes (hregions : handoff.regions = pushRegions [] map.conventional)
    (hsplit : map.runs = before ++ (first :: run) :: after)
    (htakes : Coalesce.Takes HandoffMemoryRegion.adjacent maxMemoryRegions
      (pushRegions [] before.flatten) first) : handoff.Presents (first :: run) := by
  have hmem : first :: run ∈ map.runs := by simp [hsplit]
  have hpushed : ∃ region ∈ pushRegions (pushRegions [] before.flatten) (first :: run),
      region.base.toNat ≤ first.base.toNat ∧
        min (first.base.toNat - region.base.toNat + runBytes (first :: run)) (2 ^ 64 - 1) ≤
          region.size.toNat := by
    rcases Coalesce.pushAll_of_takes HandoffMemoryRegion.adjacent_merge run htakes
      (List.isChain_of_mem_splitBy hmem) with ⟨front, last, _, hadjacent, hpush⟩ | hpush
    · obtain ⟨hbase, hsize⟩ := HandoffMemoryRegion.foldl_merge (first :: run) last
      have hmeet := congrArg UInt64.toNat (beq_iff_eq.mp hadjacent)
      rw [toNat_saturatingAdd] at hmeet
      have hlt := last.base.toNat_lt
      refine ⟨_, hpush ▸ List.mem_append_right front List.mem_cons_self, ?_, ?_⟩
      · rw [hbase]
        omega
      · rw [hbase, hsize]
        omega
    · obtain ⟨hbase, hsize⟩ := HandoffMemoryRegion.foldl_merge run first
      refine ⟨_, hpush ▸ List.mem_append_right _ List.mem_cons_self, by rw [hbase], ?_⟩
      rw [hbase, hsize, Nat.sub_self, Nat.zero_add, runBytes, runBytes, List.map_cons,
        List.sum_cons]
  obtain ⟨region, hregion, hle, hsize⟩ := hpushed
  obtain ⟨grown, hgrown, hbase, hgrows⟩ := Coalesce.exists_grown_pushAll
    HandoffMemoryRegion.grows_merge after.flatten hregion
  refine ⟨grown, ?_, first, rfl, hbase ▸ hle, ?_⟩
  · rw [hregions, pushRegions_split hsplit, pushRegions_append]
    exact hgrown
  · rw [← hbase]
    exact hsize.trans (UInt64.le_iff_toNat_le.mp hgrows)

/-- What a map takes is taken when it comes up. -/
theorem MemoryMapSnapshot.Takes.exists_split {run : List HandoffMemoryRegion}
    (htakes : map.Takes run) (hmem : run ∈ map.runs) :
    ∃ before after first rest, run = first :: rest ∧
      map.runs = before ++ (first :: rest) :: after ∧
      Coalesce.Takes HandoffMemoryRegion.adjacent maxMemoryRegions
        (pushRegions [] before.flatten) first := by
  obtain ⟨first, rest, rfl⟩ := MemoryMapSnapshot.exists_cons hmem
  rcases htakes with hfirst | ⟨before, after, hsplit, last, hlast, other, hother, hadjacent⟩
  · obtain ⟨before, after, htake⟩ := List.append_of_mem hfirst
    have hsplit : map.runs = before ++ (first :: rest) ::
        (after ++ map.runs.drop maxMemoryRegions) := by
      rw [← List.cons_append, ← List.append_assoc, ← htake, List.take_append_drop]
    have hlength := congrArg List.length htake
    rw [List.length_take, List.length_append, List.length_cons] at hlength
    exact ⟨before, _, first, rest, rfl, hsplit,
      Coalesce.takes_of_few HandoffMemoryRegion.adjacent_merge hsplit (by omega)⟩
  · cases hother
    refine ⟨before, after, first, rest, rfl, hsplit, ?_⟩
    rcases Nat.lt_or_ge before.length maxMemoryRegions with hfew | hmany
    · exact Coalesce.takes_of_few HandoffMemoryRegion.adjacent_merge hsplit hfew
    · exact (Coalesce.takes_iff_of_many HandoffMemoryRegion.adjacent_merge hsplit
        (by decide) hmany).mpr ⟨last, hlast, hadjacent⟩

/-- Of a run that is not taken, the first byte is not in the block. -/
theorem takes_of_presents (hregions : handoff.regions = pushRegions [] map.conventional)
    (hseparate : map.Separate) (hmem : first :: run ∈ map.runs)
    (hpresents : handoff.Presents (first :: run)) : map.Takes (first :: run) := by
  by_contra hnot
  obtain ⟨before, after, hsplit⟩ := List.append_of_mem hmem
  have hlost : ¬Coalesce.Takes HandoffMemoryRegion.adjacent maxMemoryRegions
      (pushRegions [] before.flatten) first := by
    intro htakes
    rcases Nat.lt_or_ge before.length maxMemoryRegions with hfew | hmany
    · refine hnot (.inl ?_)
      rw [hsplit, List.take_append, List.take_cons (Nat.sub_pos_of_lt hfew)]
      simp
    · obtain ⟨last, hlast, hadjacent⟩ := (Coalesce.takes_iff_of_many
        HandoffMemoryRegion.adjacent_merge hsplit (by decide) hmany).mp htakes
      exact hnot (.inr ⟨before, after, hsplit, last, hlast, first, rfl, hadjacent⟩)
  have hwhole : map.conventional = before.flatten ++ first :: (run ++ after.flatten) := by
    rw [← map.flatten_runs, hsplit, List.flatten_append, List.flatten_cons, List.cons_append]
  have hrest : handoff.regions = pushRegions [] (before.flatten ++ (run ++ after.flatten)) := by
    rw [hregions, hwhole, pushRegions_append, pushRegions_append, pushRegions,
      Coalesce.pushAll_cons, Coalesce.push_of_not_takes hlost]
    rfl
  have hfits := hseparate.fits
  have hdisjoint := hseparate.disjoint
  rw [hwhole, List.pairwise_middle fun hab => hab.symm, List.pairwise_cons] at hdisjoint
  rw [hwhole] at hfits
  obtain ⟨hpos, hend⟩ := hfits first (by simp)
  -- but it is in the region that contains the run
  obtain ⟨region, hregion, _, ⟨⟩, hle, hsize⟩ := hpresents
  have hbyte : first.base.toNat ∈ region.bytes := by
    rw [runBytes, List.map_cons, List.sum_cons] at hsize
    exact ⟨hle, by omega⟩
  rw [hrest] at hregion
  have hcover := Coalesce.coverAll_pushAll_subset HandoffMemoryRegion.fits_merge
    (before.flatten ++ (run ++ after.flatten)) (by simp) (fun other hother => hfits other (by
      rcases List.mem_append.mp hother with h | h
      · exact List.mem_append_left _ h
      · exact List.mem_append_right _ (List.mem_cons_of_mem _ h))) ⟨region, hregion, hbyte⟩
  obtain ⟨_, hnone, _⟩ | ⟨other, hother, hbyte'⟩ := hcover
  · cases hnone
  · exact Set.disjoint_left.mp (hdisjoint.1 other hother) ⟨le_refl _, by omega⟩ hbyte'

end Presents

/-- **The largest run.**  It is in the block, and the kernel's largest bank is at least as
large, if the map takes it; from a map without overlaps only then. -/
theorem largest_run_presented (arch : Arch) (map : MemoryMapSnapshot) (mode : GopMode)
    (fwTableAddr : UInt64) {run : List HandoffMemoryRegion} (hrun : map.LargestRun run) :
    ∃ handoff, buildHandoff arch map mode fwTableAddr = .ok handoff ∧
      (map.Takes run → handoff.Presents run ∧
        ∀ (pad : ℕ → UInt8) (mem : Memory) (addr : ℕ), mem.Holds addr (handoff.bytes pad) →
          ∃ info bank, (UefiHandoff.readAt mem addr).bind UefiHandoff.toBootInfo = some info ∧
            info.memory.largest = some bank ∧
            min (runBytes run) (2 ^ 64 - 1) ≤ bank.size.toNat) ∧
      (map.Separate → (handoff.Presents run ↔ map.Takes run)) := by
  obtain ⟨handoff, hbuild, hlisted, hkeeps, _⟩ := returns_buildHandoff arch map mode fwTableAddr
  have hconventional : map.conventional ≠ [] := by
    obtain ⟨first, rest, rfl⟩ := MemoryMapSnapshot.exists_cons hrun.mem_runs
    rw [← map.flatten_runs]
    exact List.ne_nil_of_mem (List.mem_flatten_of_mem hrun.mem_runs List.mem_cons_self)
  obtain ⟨_, hbuilt, hregions⟩ := returns_buildHandoff_regions arch map mode fwTableAddr
    hconventional
  obtain rfl := Except.ok.inj (hbuild.symm.trans hbuilt)
  have hpresents : map.Takes run → handoff.Presents run := by
    intro htakes
    obtain ⟨before, after, first, rest, rfl, hsplit, hfirst⟩ := htakes.exists_split hrun.mem_runs
    exact presents_of_takes hregions hsplit hfirst
  refine ⟨handoff, hbuild, ?_, ?_⟩
  · intro htakes
    refine ⟨hpresents htakes, ?_⟩
    intro pad mem addr hholds
    obtain ⟨info, hinfo, _, _, hmemory, _⟩ := toBootInfo_view hlisted hkeeps
    obtain ⟨region, hregion, first, _, _, hsize⟩ := hpresents htakes
    have harrived : region.toRegion ∈ info.memory.regions := by
      rw [hmemory]
      exact List.mem_map_of_mem hregion
    obtain ⟨bank, hbank, hle⟩ := MemoryMap.exists_largest harrived
    have hbytes : region.size.toNat ≤ bank.size.toNat := UInt64.le_iff_toNat_le.mp hle
    refine ⟨info, bank, ?_, hbank, by omega⟩
    rw [readAt_bytes hlisted.length_memory hholds]
    exact hinfo
  · intro hseparate
    refine ⟨?_, hpresents⟩
    obtain ⟨first, rest, rfl⟩ := MemoryMapSnapshot.exists_cons hrun.mem_runs
    exact takes_of_presents hregions hseparate hrun.mem_runs

/-- Eight single pages and another one, and then a bank behind the eighth page. -/
def bankBehindEighth : MemoryMapSnapshot :=
  snapshotOf ((List.range 8).map (fun k => (0x10000 * (k + 1), 1)) ++
    [(0x200000, 1), (0x81000, 255)]) (by decide)

theorem largest_run_presented_behindEighth :
    ∃ handoff, buildHandoff .aarch64 bankBehindEighth bgrMode 0 = .ok handoff ∧
      handoff.Presents [⟨0x81000, 0xff000⟩] := by
  have hrun : bankBehindEighth.LargestRun [⟨0x81000, 0xff000⟩] :=
    ⟨by decide +kernel, by decide +kernel⟩
  have htakes : bankBehindEighth.Takes [⟨0x81000, 0xff000⟩] := by
    refine .inr ⟨bankBehindEighth.runs.take 9, [], rfl, ⟨0x80000, 0x1000⟩, ?_,
      _, rfl, ?_⟩
    · decide +kernel
    · decide +kernel
  obtain ⟨handoff, hbuild, hpresents, _⟩ :=
    largest_run_presented .aarch64 bankBehindEighth bgrMode 0 hrun
  exact ⟨handoff, hbuild, (hpresents htakes).1⟩

/-- Eight single pages and then the bank. -/
def bankNinth : MemoryMapSnapshot :=
  snapshotOf ((List.range 8).map (fun k => (0x10000 * (k + 1), 1)) ++ [(0x90000, 255)]) (by decide)

/-- The bank is not in the block: each of its regions has one page. -/
theorem bank_dropped :
    bankNinth.LargestRun [⟨0x90000, 0xff000⟩] ∧
      (buildHandoff .aarch64 bankNinth bgrMode 0).toOption.map EfiHandoff.regions =
        some ((List.range 8).map fun k => ⟨0x10000 * (UInt64.ofNat k + 1), 0x1000⟩) ∧
      ∀ handoff, buildHandoff .aarch64 bankNinth bgrMode 0 = .ok handoff →
        ¬ handoff.Presents [⟨0x90000, 0xff000⟩] := by
  have hregions : (buildHandoff .aarch64 bankNinth bgrMode 0).toOption.map EfiHandoff.regions =
      some ((List.range 8).map fun k => ⟨0x10000 * (UInt64.ofNat k + 1), 0x1000⟩) := by
    decide +kernel
  refine ⟨⟨by decide +kernel, by decide +kernel⟩, hregions, ?_⟩
  rintro handoff hbuild ⟨region, hregion, first, _, _, hsize⟩
  rw [hbuild] at hregions
  obtain heq : handoff.regions = _ := Option.some.inj hregions
  rw [heq, List.mem_map] at hregion
  obtain ⟨k, _, rfl⟩ := hregion
  have hbytes : runBytes [⟨0x90000, 0xff000⟩] = 0xff000 := by decide
  replace hsize : _ ≤ 0x1000 := hsize
  omega

end Hyperion.Efi
