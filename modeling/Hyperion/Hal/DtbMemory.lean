import Hyperion.Hal.DtbBlob

/-!
# What the device-tree parser publishes as RAM

Every node down to depth seven whose name begins with `memory` makes an offer when it
closes: the first entry of its `reg`.  The memory map starts with the bank of the
fallback, and whenever an offer finds exactly that bank in it, the bank is taken for
the fallback's and dropped (`settled`).  The first eight of the offers that are left
are published (`regions_of_tree`).
-/

namespace Hyperion.Hal.Dtb

open Hyperion.Lib

/-- The bank of the fallback. -/
def fallbackBank : MemoryRegion := ⟨0x40000000, 256 * 1024 * 1024⟩

/-- Regions that are not empty. -/
def nonEmpty (regions : List MemoryRegion) : List MemoryRegion :=
  regions.filter fun region => region.size ≠ 0

/-! ## Offers -/

/-- What a node puts into the memory map when it closes. -/
def NodeCall.offer? (call : NodeCall) : Option MemoryRegion :=
  if startsWith call.name "memory" then call.reg.map fun r => ⟨r.1, r.2⟩ else none

def offers (calls : List NodeCall) : List MemoryRegion := calls.filterMap NodeCall.offer?

/-- An offer finds the memory map as it is, or empty if it is the fallback's. -/
def offered (memory : MemoryMap) (region : MemoryRegion) : MemoryMap :=
  (if memory.regions = [fallbackBank] then MemoryMap.empty else memory).push region

/-- The offers that last, where nothing or the fallback's bank was there before. -/
def settled : List MemoryRegion → List MemoryRegion
  | [] => []
  | region :: rest =>
    if region.size = 0 ∨ region = fallbackBank ∧ rest ≠ [] then settled rest
    else region :: nonEmpty rest

/-! ## The memory map after some calls -/

theorem fwTableAddr_actOnNode (info : BootInfo) (call : NodeCall) :
    (actOnNode info call).fwTableAddr = info.fwTableAddr :=
  actOnNode_rule (P := fun next => next.fwTableAddr = info.fwTableAddr) rfl (fun _ _ => rfl)
    (fun _ _ _ => rfl) (fun _ => rfl) (fun _ => rfl) fun _ => rfl

/-- Only offers change the memory map. -/
theorem memory_actOnNode {info : BootInfo} (haddr : info.fwTableAddr ≠ 0) (call : NodeCall) :
    (actOnNode info call).memory =
      (match call.offer? with
      | some region => offered info.memory region
      | none => info.memory) := by
  rw [NodeCall.offer?]
  by_cases hname : startsWith call.name "memory" = true
  · obtain ⟨name, compatible, reg, clockHz, fb, stdoutPath, inChosen⟩ := call
    delta actOnNode
    dsimp only at hname ⊢
    rw [if_pos hname, if_pos hname]
    cases reg with
    | none => rfl
    | some reg =>
      have hfallback : (info.fwTableAddr ≠ 0 ∧ hasFallbackMemory info = true) ↔
          info.memory.regions = [fallbackBank] := by
        simp [haddr, hasFallbackMemory, fallbackBank]
      show (if _ then _ else _ : MemoryMap).push _ = (if _ then _ else _ : MemoryMap).push _
      rw [if_congr hfallback rfl rfl]
  · rw [if_neg hname]
    exact actOnNode_rule (P := fun next => next.memory = info.memory) rfl
      (fun hmemory => absurd hmemory hname) (fun _ _ _ => rfl) (fun _ => rfl) (fun _ => rfl)
      fun _ => rfl

theorem memory_foldl (calls : List NodeCall) {info : BootInfo} (haddr : info.fwTableAddr ≠ 0) :
    (calls.foldl actOnNode info).memory = (offers calls).foldl offered info.memory := by
  induction calls generalizing info with
  | nil => rfl
  | cons call calls ih =>
    have hnext : (actOnNode info call).fwTableAddr ≠ 0 := by
      rw [fwTableAddr_actOnNode]
      exact haddr
    rw [List.foldl_cons, ih hnext, memory_actOnNode haddr, offers, offers, List.filterMap_cons]
    cases call.offer? <;> rfl

/-! ## What becomes of the offers -/

theorem regions_push_empty {memory : MemoryMap} {region : MemoryRegion} (hsize : region.size = 0) :
    memory.push region = memory := by
  rw [MemoryMap.push, dif_neg]
  rintro ⟨_, hpos⟩
  rw [hsize] at hpos
  exact absurd hpos (by decide)

theorem regions_push_nonEmpty (memory : MemoryMap) (region : MemoryRegion) :
    (memory.push region).regions =
      (memory.regions ++ nonEmpty [region]).take maxMemoryRegions := by
  by_cases hsize : region.size = 0
  · rw [regions_push_empty hsize]
    simp [nonEmpty, hsize, List.take_of_length_le memory.length_le]
  · rw [MemoryMap.regions_push (UInt64.pos_iff_ne_zero.mpr hsize)]
    simp [nonEmpty, hsize]

/-- Behind a bank that is not the fallback's, the offers that fit are kept. -/
theorem regions_foldl_offered (list : List MemoryRegion) {memory : MemoryMap}
    (hne : memory.regions ≠ []) (hfallback : memory.regions ≠ [fallbackBank]) :
    (list.foldl offered memory).regions =
      (memory.regions ++ nonEmpty list).take maxMemoryRegions := by
  induction list generalizing memory with
  | nil => simp [nonEmpty, List.take_of_length_le memory.length_le]
  | cons region rest ih =>
    have hoffered : offered memory region = memory.push region := by
      rw [offered, if_neg hfallback]
    have hregions := regions_push_nonEmpty memory region
    -- the list only grows, so its first bank stays
    have hprefix : memory.regions <+: (memory.push region).regions := by
      rw [hregions]
      exact List.prefix_take_iff.mpr ⟨List.prefix_append _ _, memory.length_le⟩
    have hne' : (memory.push region).regions ≠ [] := by
      intro hnil
      rw [hnil] at hprefix
      exact hne (List.prefix_nil.mp hprefix)
    have hfallback' : (memory.push region).regions ≠ [fallbackBank] := by
      intro hsingle
      rw [hsingle] at hprefix
      rcases List.prefix_cons_iff.mp hprefix with hnil | ⟨tail, hcons, htail⟩
      · exact hne hnil
      · rw [List.prefix_nil.mp htail] at hcons
        exact hfallback hcons
    rw [List.foldl_cons, hoffered, ih hne' hfallback', hregions, MemoryMap.take_take_append,
      List.append_assoc]
    simp only [nonEmpty, ← List.filter_append, List.singleton_append]

/-- The regions that are left of the offers, where nothing or the fallback's bank was
there before. -/
theorem regions_foldl_settled (list : List MemoryRegion) {memory : MemoryMap}
    (hlist : list ≠ []) (hstart : memory.regions = [] ∨ memory.regions = [fallbackBank]) :
    (list.foldl offered memory).regions = (settled list).take maxMemoryRegions := by
  induction list generalizing memory with
  | nil => exact absurd rfl hlist
  | cons region rest ih =>
    have hoffered : (offered memory region).regions = nonEmpty [region] := by
      have hempty : (if memory.regions = [fallbackBank] then MemoryMap.empty
          else memory).regions = [] := by
        split
        · rfl
        · rename_i hnot
          exact hstart.resolve_right hnot
      rw [offered, regions_push_nonEmpty, hempty, List.nil_append]
      apply List.take_of_length_le
      exact le_trans (List.length_filter_le _ _) (Nat.succ_le_succ (Nat.zero_le 7))
    rw [List.foldl_cons, settled]
    split
    case isTrue hdropped =>
      -- nothing that lasts
      have hnext : (offered memory region).regions = [] ∨
          (offered memory region).regions = [fallbackBank] := by
        rw [hoffered]
        by_cases hsize : region.size = 0
        · exact .inl (by simp [nonEmpty, hsize])
        · obtain ⟨rfl, _⟩ := hdropped.resolve_left hsize
          exact .inr rfl
      cases rest with
      | nil =>
        have hsize : region.size = 0 := hdropped.resolve_right fun h => h.2 rfl
        rw [List.foldl_nil, hoffered]
        simp [nonEmpty, hsize, settled]
      | cons second rest => exact ih (List.cons_ne_nil _ _) hnext
    case isFalse hkept =>
      obtain ⟨hsize, hstays⟩ := not_or.mp hkept
      have hsingle : (offered memory region).regions = [region] := by
        rw [hoffered]
        simp [nonEmpty, hsize]
      cases rest with
      | nil =>
        rw [List.foldl_nil, hsingle]
        rfl
      | cons second rest =>
        have hregion : region ≠ fallbackBank := fun h => hstays ⟨h, List.cons_ne_nil _ _⟩
        have hne : (offered memory region).regions ≠ [] := by simp [hsingle]
        have hfallback : (offered memory region).regions ≠ [fallbackBank] := by
          simpa [hsingle] using hregion
        rw [regions_foldl_offered _ hne hfallback, hsingle, List.singleton_append]

theorem settled_sublist (list : List MemoryRegion) : (settled list).Sublist (nonEmpty list) := by
  induction list with
  | nil => exact List.Sublist.refl _
  | cons region rest ih =>
    have hrest : (nonEmpty rest).Sublist (nonEmpty (region :: rest)) :=
      (List.sublist_cons_self region rest).filter _
    rw [settled]
    split
    case isTrue => exact ih.trans hrest
    case isFalse hkept =>
      have hsize := (not_or.mp hkept).1
      simp [nonEmpty, hsize]

/-- Only the fallback's bank is ever dropped. -/
theorem mem_settled {list : List MemoryRegion} {region : MemoryRegion} (hmem : region ∈ list)
    (hsize : region.size ≠ 0) (hne : region ≠ fallbackBank) : region ∈ settled list := by
  induction list with
  | nil => cases hmem
  | cons first rest ih =>
    rw [settled]
    split
    case isTrue hdropped =>
      rcases List.mem_cons.mp hmem with rfl | hrest
      · rcases hdropped with h | ⟨h, _⟩
        · exact absurd h hsize
        · exact absurd h hne
      · exact ih hrest
    case isFalse =>
      rcases List.mem_cons.mp hmem with rfl | hrest
      · exact List.mem_cons_self
      · exact List.mem_cons_of_mem _ (by simpa [nonEmpty] using ⟨hrest, hsize⟩)

/-! ## What is published -/

/-- The memory map after the offers of a tree. -/
def published (list : List MemoryRegion) : List MemoryRegion :=
  if list = [] then [fallbackBank] else (settled list).take maxMemoryRegions

theorem regions_of_tree {dtbAddr : UInt64} {memory : List UInt8} {root : Node}
    (haddr : dtbAddr ≠ 0) (htree : HoldsTree memory root) :
    ∃ info, parseOrFallback dtbAddr memory = .ok info ∧
      info.memory.regions = published (offers root.calls) := by
  refine ⟨_, parseOrFallback_of_tree haddr htree, ?_⟩
  rw [memory_foldl _ (show (initialInfo dtbAddr).fwTableAddr ≠ 0 from haddr), published]
  split
  case isTrue hnone =>
    rw [hnone]
    rfl
  case isFalse hsome => exact regions_foldl_settled _ hsome (.inr rfl)

theorem published_sublist {list : List MemoryRegion} (hlist : list ≠ []) :
    (published list).Sublist (nonEmpty list) := by
  rw [published, if_neg hlist]
  exact (List.take_sublist _ _).trans (settled_sublist list)

end Hyperion.Hal.Dtb
