import Hyperion.Hal.DtbCells

/-!
# Which banks of a tree are published

A memory node is one named `memory` or `memory@…`.  Its banks are the non-empty entries of its
`reg`, divided with the cell counts of its parent, and `Node.declaredBanks` has those of all nodes
of a tree in document order.

The parser has one reading of a node, and only of the nodes down to depth seven whose name begins
with `memory`.  From these readings, in the order the nodes close, the memory map is made.  So what
another node with such a name has in its `reg` is published as RAM (`regions_from_memory`), and all
banks are published in their order if

* they are in nodes that the walk reports, and in none that is inside a memory node with a bank;
* a node has one bank at most, and is read as it;
* none of them is dropped: because it comes when the map is full, or because it is at the front of
  the map and looks like the fallback's when another one comes.

Otherwise a bank is missing or at another place, unless another node or the fallback makes up for
it by chance (`banks_published`).
-/

namespace Hyperion.Hal.Dtb

open Hyperion.Lib

/-! ## Lists -/

section Lists

variable {α β : Type}

theorem eq_of_length_flatMap_le {f g : α → List β} {list : List α}
    (hsub : ∀ a ∈ list, (f a).Sublist (g a))
    (hle : (list.flatMap g).length ≤ (list.flatMap f).length) : ∀ a ∈ list, f a = g a := by
  induction list with
  | nil => exact fun a ha => absurd ha List.not_mem_nil
  | cons a list ih =>
    rw [List.forall_mem_cons] at hsub ⊢
    rw [List.flatMap_cons, List.flatMap_cons, List.length_append, List.length_append] at hle
    have hfirst := hsub.1.length_le
    have hrest := (List.Sublist.flatMap_right list hsub.2).length_le
    exact ⟨hsub.1.eq_of_length (by omega), ih hsub.2 (by omega)⟩

variable [DecidableEq α] {wanted front middle back : List α}

theorem sublist_filter_mem {list : List α} (hsub : wanted.Sublist list) :
    wanted.Sublist (list.filter (· ∈ wanted)) := by
  have hall : wanted.filter (· ∈ wanted) = wanted :=
    List.filter_eq_self.mpr fun a ha => decide_eq_true ha
  have hfilter := hsub.filter fun a => decide (a ∈ wanted)
  rwa [hall] at hfilter

/-- If the middle of a list has all that is wanted, the rest has none of it. -/
theorem not_mem_of_middle (hwanted : (front ++ middle ++ back).filter (· ∈ wanted) = wanted)
    (hsub : wanted.Sublist middle) : ∀ a ∈ front ++ back, a ∉ wanted := by
  have hle := (sublist_filter_mem hsub).length_le
  have hsum := congrArg List.length hwanted
  rw [List.filter_append, List.filter_append, List.length_append, List.length_append] at hsum
  have hfront : front.filter (· ∈ wanted) = [] := List.length_eq_zero_iff.mp (by omega)
  have hback : back.filter (· ∈ wanted) = [] := List.length_eq_zero_iff.mp (by omega)
  rw [List.filter_eq_nil_iff] at hfront hback
  intro a ha
  rcases List.mem_append.mp ha with ha | ha
  · simpa using hfront a ha
  · simpa using hback a ha

end Lists

/-! ## Banks and readings -/

/-- A node named `memory` or `memory@…`. -/
def IsMemory (name : String) : Prop := name = "memory" ∨ startsWith name "memory@" = true

instance (name : String) : Decidable (IsMemory name) := inferInstanceAs (Decidable (_ ∨ _))

def rangeOf (region : MemoryRegion) : Range := ⟨region.base.toNat, region.size.toNat⟩

namespace Place

/-- The banks of a node. -/
def banks (place : Place) : List Range :=
  if IsMemory place.name then place.entries.filter fun range => range.size ≠ 0 else []

/-- The region that a node is read as. -/
def reading? (place : Place) : Option MemoryRegion :=
  if startsWith place.name "memory" then place.read?.map fun r => ⟨r.1, r.2⟩ else none

/-- The range of the reading, if it is not empty. -/
def ranges (place : Place) : List Range := (nonEmpty place.reading?.toList).map rangeOf

end Place

namespace Node

variable (root : Node)

/-- The banks of a tree in document order. -/
def declaredBanks : List Range := root.every.flatMap Place.banks

/-- The readings of the nodes in the order they close. -/
def readings : List MemoryRegion := root.places.filterMap Place.reading?

end Node

/-- The readings that are not empty, without those at the front that look like the fallback's. -/
def lasting (list : List MemoryRegion) : List MemoryRegion :=
  (nonEmpty list).dropWhile (· = fallbackBank)

/-- The readings that the memory map drops: those at the front that look like the fallback's, except
for the last reading of all, and those for which there is no room. -/
def dropped (list : List MemoryRegion) : List MemoryRegion :=
  if lasting list = [] ∧ list.getLast? = some fallbackBank then (nonEmpty list).tail
  else (nonEmpty list).takeWhile (· = fallbackBank) ++ (lasting list).drop maxMemoryRegions

/-- Every bank is read and kept. -/
structure Node.Complete (root : Node) : Prop where
  /-- The banks are those of the places that the walk reports, in the order of the report. -/
  order : root.places.flatMap Place.banks = root.declaredBanks
  /-- A node has one bank at most, and is read as it. -/
  read : ∀ place ∈ root.places, ∀ bank ∈ place.banks,
    place.banks = [bank] ∧ place.reading?.map rangeOf = some bank
  kept : ∀ region ∈ dropped root.readings, rangeOf region ∉ root.declaredBanks

/-- Nothing makes up for a bank that is lost: a node is not read as a bank of another one, and
without a reading the fallback's bank is none of the banks. -/
structure Node.Unambiguous (root : Node) : Prop where
  others : ∀ place ∈ root.places, ∀ range ∈ place.ranges, range ∈ root.declaredBanks →
    range ∈ place.banks
  fallback : root.readings = [] → rangeOf fallbackBank ∉ root.declaredBanks

/-! ## The readings are what is offered -/

theorem NodeCall.IsFor.offer_eq {call : NodeCall} {place : Place} (hfor : call.IsFor place) :
    call.offer? = place.reading? := by
  rw [NodeCall.offer?, Place.reading?, hfor.name_eq, hfor.reg_eq]

theorem offers_calls (root : Node) : offers root.calls = root.readings :=
  filterMap_of_isFor (forall₂_visit_places root 1 aboveRoot ⟨"", false⟩ [] ⟨rfl, rfl⟩)
    fun _ _ hfor => hfor.offer_eq

theorem ranges_readings (root : Node) :
    (nonEmpty root.readings).map rangeOf = root.places.flatMap Place.ranges := by
  rw [Node.readings, List.filterMap_eq_flatMap_toList, nonEmpty, List.filter_flatMap,
    List.map_flatMap]
  rfl

theorem Place.ranges_eq {place : Place} {range : Range} (hrange : range ∈ place.ranges) :
    place.ranges = [range] ∧ place.reading?.map rangeOf = some range := by
  obtain ⟨region, hregion, rfl⟩ := List.mem_map.mp hrange
  obtain ⟨hreading, hsize⟩ := List.mem_filter.mp hregion
  rw [Option.mem_toList] at hreading
  rw [Place.ranges, hreading]
  simp_all [nonEmpty]

/-! ## Where the published regions come from -/

namespace Node

variable (root : Node)

/-- The region is read from the `reg` of a memory node. -/
def FromMemory (region : MemoryRegion) : Prop :=
  ∃ place ∈ root.places, IsMemory place.name ∧ place.reading? = some region

/-- Something is read, and what is not empty is read from memory nodes. -/
def OnlyMemory : Prop :=
  root.readings ≠ [] ∧ ∀ place ∈ root.places, ∀ region, place.reading? = some region →
    region.size ≠ 0 → IsMemory place.name

/-- Nothing hides a region that is from another node: there is room for all readings, and neither
the fallback's bank nor the reading of another node is that of a memory node by chance. -/
structure Distinct : Prop where
  room : (nonEmpty root.readings).length ≤ maxMemoryRegions
  fallback : ¬root.FromMemory fallbackBank
  others : ∀ place ∈ root.places, ¬IsMemory place.name → ∀ region, place.reading? = some region →
    ¬root.FromMemory region ∧ region ≠ fallbackBank

end Node

variable {root : Node}

theorem fromMemory_of_published (honly : root.OnlyMemory) {region : MemoryRegion}
    (hregion : region ∈ published root.readings) : root.FromMemory region := by
  obtain ⟨hreading, hsize⟩ := List.mem_filter.mp ((published_sublist honly.1).subset hregion)
  obtain ⟨place, hplace, hread⟩ := List.mem_filterMap.mp hreading
  exact ⟨place, hplace, honly.2 place hplace region hread (of_decide_eq_true hsize), hread⟩

theorem onlyMemory_of_published (hdistinct : root.Distinct)
    (hfrom : ∀ region ∈ published root.readings, root.FromMemory region) : root.OnlyMemory := by
  have hsome : root.readings ≠ [] := by
    intro hnone
    rw [published, if_pos hnone] at hfrom
    exact hdistinct.fallback (hfrom _ List.mem_cons_self)
  refine ⟨hsome, ?_⟩
  intro place hplace region hread hsize
  by_contra hname
  obtain ⟨hforeign, hne⟩ := hdistinct.others place hplace hname region hread
  have hreading : region ∈ root.readings := List.mem_filterMap.mpr ⟨place, hplace, hread⟩
  have hall : published root.readings = settled root.readings := by
    rw [published, if_neg hsome]
    exact List.take_of_length_le ((settled_sublist _).length_le.trans hdistinct.room)
  exact hforeign (hfrom region (hall ▸ mem_settled hreading hsize hne))

theorem regions_of_readings {dtbAddr : UInt64} {memory : List UInt8} (haddr : dtbAddr ≠ 0)
    (htree : HoldsTree memory root) :
    ∃ info, parseOrFallback dtbAddr memory = .ok info ∧
      info.memory.regions = published root.readings :=
  offers_calls root ▸ regions_of_tree haddr htree

/-- Every published region is read from a memory node if only memory nodes are read and one of
them is, and from a tree without a chance hit only then. -/
theorem regions_from_memory {dtbAddr : UInt64} {memory : List UInt8} (haddr : dtbAddr ≠ 0)
    (htree : HoldsTree memory root) :
    ∃ info, parseOrFallback dtbAddr memory = .ok info ∧
      (root.OnlyMemory → ∀ region ∈ info.memory.regions, root.FromMemory region) ∧
      (root.Distinct → (∀ region ∈ info.memory.regions, root.FromMemory region) →
        root.OnlyMemory) := by
  obtain ⟨info, hparse, hregions⟩ := regions_of_readings haddr htree
  refine ⟨info, hparse, ?_, ?_⟩
  · intro honly region hregion
    exact fromMemory_of_published honly (hregions ▸ hregion)
  · intro hdistinct hfrom
    exact onlyMemory_of_published hdistinct (hregions ▸ hfrom)

/-- A board with two banks of RAM, each in a node of its own. -/
def twoNodes : Node :=
  .mk "" []
    [.mk "memory@0" [("reg", [0, 0, 0, 0, 0, 0, 0, 0, 0x3c, 0, 0, 0])] [],
      .mk "memory@40000000" [("reg", [0, 0, 0, 0, 0x40, 0, 0, 0, 0x40, 0, 0, 0])] []]

theorem regions_from_memory_twoNodes :
    twoNodes.OnlyMemory ∧ ∃ info, parseOrFallback 0x48000000 twoNodes.blob = .ok info ∧
      ∀ region ∈ info.memory.regions, twoNodes.FromMemory region := by
  have hnames : ∀ place ∈ twoNodes.places, startsWith place.name "memory" = true →
      IsMemory place.name := by decide +kernel
  have honly : twoNodes.OnlyMemory := by
    refine ⟨by decide +kernel, fun place hplace region hread _ => hnames place hplace ?_⟩
    by_contra hname
    rw [Place.reading?, if_neg hname] at hread
    cases hread
  obtain ⟨info, hparse, hfrom, _⟩ :=
    regions_from_memory (show (0x48000000 : UInt64) ≠ 0 by decide)
      (holdsTree_blob twoNodes (by decide +kernel))
  exact ⟨honly, info, hparse, hfrom honly⟩

/-- A board with a memory controller behind its RAM. -/
def withController : Node :=
  .mk "" []
    [.mk "memory@80000000" [("reg", [0, 0, 0, 0, 0x80, 0, 0, 0, 0x40, 0, 0, 0])] [],
      .mk "memory-controller@2080000" [("reg", [0, 0, 0, 0, 0x02, 0x08, 0, 0, 0, 0, 0x10, 0])] []]

/-- The registers of the memory controller are published as RAM. -/
theorem controller_published :
    ∃ info, parseOrFallback 0x48000000 withController.blob = .ok info ∧
      info.memory.regions = [⟨0x80000000, 0x40000000⟩, ⟨0x02080000, 0x1000⟩] ∧
      ¬∀ region ∈ info.memory.regions, withController.FromMemory region := by
  have haddr : (0x48000000 : UInt64) ≠ 0 := by decide
  obtain ⟨info, hparse, hregions⟩ :=
    regions_of_readings haddr (holdsTree_blob withController (by decide +kernel))
  refine ⟨info, hparse, by rw [hregions]; decide +kernel, ?_⟩
  intro hfrom
  obtain ⟨place, hplace, hname, hread⟩ := hfrom ⟨0x02080000, 0x1000⟩
    (by rw [hregions]; decide +kernel)
  have hnone : ∀ place ∈ withController.places, IsMemory place.name →
      place.reading? ≠ some ⟨0x02080000, 0x1000⟩ := by decide +kernel
  exact hnone place hplace hname hread

/-! ## What lasts of the readings -/

theorem settled_eq (list : List MemoryRegion) :
    settled list =
      if lasting list = [] ∧ list.getLast? = some fallbackBank then [fallbackBank]
      else lasting list := by
  induction list with
  | nil => rfl
  | cons region rest ih =>
    rw [settled]
    split
    case isTrue hdropped =>
      have hlasting : lasting (region :: rest) = lasting rest := by
        rcases hdropped with hsize | ⟨rfl, _⟩
        · simp [lasting, nonEmpty, hsize]
        · rfl
      rw [ih, hlasting]
      cases rest with
      | nil =>
        have hne : region ≠ fallbackBank := by
          rintro rfl
          exact absurd (hdropped.resolve_right fun h => h.2 rfl) (by decide)
        simp [lasting, nonEmpty, hne]
      | cons second rest => rw [List.getLast?_cons_cons]
    case isFalse hkept =>
      obtain ⟨hsize, hstays⟩ := not_or.mp hkept
      have hnonEmpty : nonEmpty (region :: rest) = region :: nonEmpty rest := by
        simp [nonEmpty, hsize]
      by_cases hregion : region = fallbackBank
      · obtain rfl : rest = [] := by simpa [hregion] using hstays
        subst hregion
        rfl
      · have hlasting : lasting (region :: rest) = region :: nonEmpty rest := by
          rw [lasting, hnonEmpty, List.dropWhile_cons_of_neg (by simpa using hregion)]
        rw [hlasting, if_neg]
        simp

/-- What is not empty is published or dropped. -/
theorem published_split {list : List MemoryRegion} (hlist : list ≠ []) :
    ∃ front back, nonEmpty list = front ++ published list ++ back ∧
      dropped list = front ++ back := by
  have hsplit : (nonEmpty list).takeWhile (· = fallbackBank) ++ lasting list = nonEmpty list :=
    List.takeWhile_append_dropWhile
  rw [published, if_neg hlist, settled_eq, dropped]
  split
  case isTrue hlast =>
    have hall : ∀ region ∈ nonEmpty list, region = fallbackBank := by
      simpa [lasting, List.dropWhile_eq_nil_iff] using hlast.1
    have hmem : fallbackBank ∈ nonEmpty list :=
      List.mem_filter.mpr ⟨List.mem_of_getLast? hlast.2, by decide⟩
    refine ⟨[], (nonEmpty list).tail, ?_, rfl⟩
    cases hcons : nonEmpty list with
    | nil => simp [hcons] at hmem
    | cons first rest =>
      rw [hall first (hcons ▸ List.mem_cons_self)]
      rfl
  case isFalse =>
    refine ⟨_, _, ?_, rfl⟩
    rw [List.append_assoc, List.take_append_drop, hsplit]

/-! ## All banks of a complete tree are published -/

theorem banks_sublist_ranges {place : Place}
    (hread : ∀ bank ∈ place.banks, place.banks = [bank] ∧
      place.reading?.map rangeOf = some bank) : place.banks.Sublist place.ranges := by
  cases hbanks : place.banks with
  | nil => exact List.nil_sublist _
  | cons bank rest =>
    have hmem : bank ∈ place.banks := hbanks ▸ List.mem_cons_self
    obtain ⟨hone, hreading⟩ := hread bank hmem
    obtain ⟨region, hregion, rfl⟩ := Option.map_eq_some_iff.mp hreading
    have hsize : region.size ≠ 0 := by
      rw [Place.banks] at hmem
      split at hmem
      case isTrue =>
        have hpos := of_decide_eq_true (List.mem_filter.mp hmem).2
        rintro hzero
        exact hpos (by rw [rangeOf, hzero]; rfl)
      case isFalse => cases hmem
    rw [← hbanks, hone, Place.ranges, hregion]
    simp [nonEmpty, hsize]

theorem Node.Complete.sublist_published (hroot : root.Complete) :
    root.declaredBanks.Sublist ((published root.readings).map rangeOf) := by
  have hsub : root.declaredBanks.Sublist ((nonEmpty root.readings).map rangeOf) := by
    rw [← hroot.order, ranges_readings]
    exact List.Sublist.flatMap_right _ fun place hplace =>
      banks_sublist_ranges (hroot.read place hplace)
  by_cases hlist : root.readings = []
  · rw [hlist] at hsub
    exact hsub.trans (List.nil_sublist _)
  · -- nothing that is dropped is a bank
    obtain ⟨front, back, hsplit, hdropped⟩ := published_split hlist
    have hkept : ∀ bank ∈ root.declaredBanks, bank ∉ (front ++ back).map rangeOf := by
      intro bank hbank hlost
      obtain ⟨region, hregion, rfl⟩ := List.mem_map.mp hlost
      exact hroot.kept region (hdropped ▸ hregion) hbank
    rw [hsplit, List.map_append, List.map_append] at hsub
    rw [List.map_append] at hkept
    have hfront := hsub.of_sublist_append_left fun bank hbank hback =>
      hkept bank hbank (List.mem_append_right _ hback)
    exact hfront.of_sublist_append_right fun bank hbank hfront =>
      hkept bank hbank (List.mem_append_left _ hfront)

/-! ## From an unambiguous tree all banks are published only then -/

section Unambiguous

variable {root : Node} (hplain : root.Unambiguous)
include hplain

theorem filter_ranges_sublist (place : Place) (hplace : place ∈ root.places) :
    (place.ranges.filter (· ∈ root.declaredBanks)).Sublist place.banks := by
  cases hranges : place.ranges with
  | nil => exact List.nil_sublist _
  | cons range rest =>
    have hmem : range ∈ place.ranges := hranges ▸ List.mem_cons_self
    rw [← hranges, (Place.ranges_eq hmem).1]
    by_cases hbank : range ∈ root.declaredBanks
    · simpa [hbank] using hplain.others place hplace range hmem hbank
    · simp [hbank]

/-- The readings that are banks are the banks in document order, and each is of its own node. -/
theorem filter_readings_eq
    (hsub : root.declaredBanks.Sublist ((nonEmpty root.readings).map rangeOf)) :
    ((nonEmpty root.readings).map rangeOf).filter (· ∈ root.declaredBanks) = root.declaredBanks ∧
      root.places.flatMap Place.banks = root.declaredBanks ∧
      ∀ place ∈ root.places, place.ranges.filter (· ∈ root.declaredBanks) = place.banks := by
  have hpieces := filter_ranges_sublist hplain
  have hfiltered := sublist_filter_mem hsub
  rw [ranges_readings, List.filter_flatMap] at hfiltered ⊢
  have hplaces := List.Sublist.flatMap_right _ hpieces
  have hle : (root.places.flatMap Place.banks).length ≤ root.declaredBanks.length := by
    obtain ⟨places, hperm, hsublist⟩ := places_subperm root
    rw [← (hperm.flatMap_right Place.banks).length_eq]
    exact (hsublist.flatMap Place.banks).length_le
  have horder := (hfiltered.trans hplaces).eq_of_length_le hle
  refine ⟨(hfiltered.eq_of_length_le (hplaces.length_le.trans hle)).symm, horder.symm, ?_⟩
  exact eq_of_length_flatMap_le hpieces (hle.trans hfiltered.length_le)

theorem complete_of_sublist
    (hsub : root.declaredBanks.Sublist ((published root.readings).map rangeOf)) :
    root.Complete := by
  have hread : root.declaredBanks.Sublist ((nonEmpty root.readings).map rangeOf) := by
    by_cases hlist : root.readings = []
    · rw [published, if_pos hlist, List.map_singleton] at hsub
      have hnil : root.declaredBanks = [] := by
        apply List.eq_nil_iff_forall_not_mem.mpr
        intro bank hbank
        have heq := List.mem_singleton.mp (hsub.subset hbank)
        exact hplain.fallback hlist (heq ▸ hbank)
      rw [hnil]
      exact List.nil_sublist _
    · exact hsub.trans ((published_sublist hlist).map rangeOf)
  obtain ⟨hfilter, horder, hpieces⟩ := filter_readings_eq hplain hread
  refine ⟨horder, ?_, ?_⟩
  · intro place hplace bank hbank
    rw [← hpieces place hplace] at hbank ⊢
    obtain ⟨hrange, hwanted⟩ := List.mem_filter.mp hbank
    obtain ⟨hone, hreading⟩ := Place.ranges_eq hrange
    refine ⟨?_, hreading⟩
    rw [hone]
    exact List.filter_eq_self.mpr fun a ha => List.mem_singleton.mp ha ▸ hwanted
  · intro region hregion
    by_cases hlist : root.readings = []
    · rw [hlist] at hregion
      cases hregion
    · obtain ⟨front, back, hsplit, hdropped⟩ := published_split hlist
      rw [hsplit, List.map_append, List.map_append] at hfilter
      rw [hdropped] at hregion
      exact not_mem_of_middle hfilter hsub _ (List.map_append ▸ List.mem_map_of_mem hregion)

end Unambiguous

/-- **The banks of a tree.**  All of them are published in document order if each is read and
kept, and from an unambiguous tree only then. -/
theorem banks_published {dtbAddr : UInt64} {memory : List UInt8} (haddr : dtbAddr ≠ 0)
    (htree : HoldsTree memory root) :
    ∃ info, parseOrFallback dtbAddr memory = .ok info ∧
      (root.Complete → root.declaredBanks.Sublist (info.memory.regions.map rangeOf)) ∧
      (root.Unambiguous → root.declaredBanks.Sublist (info.memory.regions.map rangeOf) →
        root.Complete) := by
  obtain ⟨info, hparse, hregions⟩ := regions_of_readings haddr htree
  refine ⟨info, hparse, ?_, ?_⟩
  · intro hroot
    rw [hregions]
    exact hroot.sublist_published
  · intro hplain hsub
    rw [hregions] at hsub
    exact complete_of_sublist hplain hsub

/-- The tree of a board with two banks of RAM in one memory node, as `#address-cells = 2`
and `#size-cells = 1` have them. -/
def twoBanks : Node :=
  .mk "" []
    [.mk "memory@0" [("reg", [0, 0, 0, 0, 0, 0, 0, 0, 0x3c, 0, 0, 0,
      0, 0, 0, 0, 0x40, 0, 0, 0, 0x40, 0, 0, 0])] []]

/-- Two banks, the first of them as large as the fallback's and at its place. -/
def fallbackFirst : Node :=
  .mk "" []
    [.mk "memory@40000000" [("reg", [0, 0, 0, 0, 0x40, 0, 0, 0, 0x10, 0, 0, 0])] [],
      .mk "memory@80000000" [("reg", [0, 0, 0, 0, 0x80, 0, 0, 0, 0x10, 0, 0, 0])] []]

/-- A bank below a bus that has the standard counts, and the root has other ones. -/
def socMemory : Node :=
  .mk "" [("#address-cells", [0, 0, 0, 1])]
    [.mk "soc" [] [.mk "memory@80000000" [("reg", [0, 0, 0, 0, 0x80, 0, 0, 0, 0x40, 0, 0, 0])] []]]

/-- Two banks, and between them a memory controller, which is read but does no harm to them. -/
def controllerBetween : Node :=
  .mk "" []
    [.mk "memory@0" [("reg", [0, 0, 0, 0, 0, 0, 0, 0, 0x3c, 0, 0, 0])] [],
      .mk "memory-controller@2080000" [("reg", [0, 0, 0, 0, 0x02, 0x08, 0, 0, 0, 0, 0x10, 0])] [],
      .mk "memory@40000000" [("reg", [0, 0, 0, 0, 0x40, 0, 0, 0, 0x40, 0, 0, 0])] []]

theorem banks_published_controllerBetween :
    controllerBetween.Complete ∧
      ∃ info, parseOrFallback 0x48000000 controllerBetween.blob = .ok info ∧
        [⟨0, 0x3c000000⟩, ⟨0x40000000, 0x40000000⟩].Sublist (info.memory.regions.map rangeOf) := by
  have htree : HoldsTree controllerBetween.blob controllerBetween :=
    holdsTree_blob controllerBetween (by decide +kernel)
  have hcomplete : controllerBetween.Complete :=
    ⟨rfl, by decide +kernel, by decide +kernel⟩
  have hbanks : controllerBetween.declaredBanks =
      [⟨0, 0x3c000000⟩, ⟨0x40000000, 0x40000000⟩] := rfl
  obtain ⟨info, hparse, hpublished, _⟩ :=
    banks_published (show (0x48000000 : UInt64) ≠ 0 by decide) htree
  exact ⟨hcomplete, info, hparse, hbanks ▸ hpublished hcomplete⟩

/-- Of the two banks of one node only the first is published, of two nodes only the second if the
first looks like the fallback's, and of a bank below a bus the half of it that is its address. -/
theorem banks_lost :
    (∃ info, parseOrFallback 0x48000000 twoBanks.blob = .ok info ∧
      twoBanks.declaredBanks = [⟨0, 0x3c000000⟩, ⟨0x40000000, 0x40000000⟩] ∧
      info.memory.regions = [⟨0, 0x3c000000⟩] ∧
      ¬twoBanks.declaredBanks.Sublist (info.memory.regions.map rangeOf)) ∧
    (∃ info, parseOrFallback 0x48000000 fallbackFirst.blob = .ok info ∧
      fallbackFirst.declaredBanks = [⟨0x40000000, 0x10000000⟩, ⟨0x80000000, 0x10000000⟩] ∧
      info.memory.regions = [⟨0x80000000, 0x10000000⟩] ∧
      ¬fallbackFirst.declaredBanks.Sublist (info.memory.regions.map rangeOf)) ∧
    (∃ info, parseOrFallback 0x48000000 socMemory.blob = .ok info ∧
      socMemory.declaredBanks = [⟨0x80000000, 0x40000000⟩] ∧
      info.memory.regions = [⟨0, 0x80000000⟩] ∧
      ¬socMemory.declaredBanks.Sublist (info.memory.regions.map rangeOf)) := by
  have haddr : (0x48000000 : UInt64) ≠ 0 := by decide
  refine ⟨?_, ?_, ?_⟩
  · obtain ⟨info, hparse, hregions⟩ :=
      regions_of_readings haddr (holdsTree_blob twoBanks (by decide +kernel))
    refine ⟨info, hparse, rfl, ?_⟩
    rw [hregions]
    decide +kernel
  · obtain ⟨info, hparse, hregions⟩ :=
      regions_of_readings haddr (holdsTree_blob fallbackFirst (by decide +kernel))
    refine ⟨info, hparse, rfl, ?_⟩
    rw [hregions]
    decide +kernel
  · obtain ⟨info, hparse, hregions⟩ :=
      regions_of_readings haddr (holdsTree_blob socMemory (by decide +kernel))
    refine ⟨info, hparse, rfl, ?_⟩
    rw [hregions]
    decide +kernel

end Hyperion.Hal.Dtb
