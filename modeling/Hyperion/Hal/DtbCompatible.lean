import Hyperion.Hal.DtbPlaces

/-!
# What a node is taken for

A `compatible` property is a list of strings, from the most specific one to the most general one.
A driver is found by going through the list.  The walk keeps the first string only, so a device is
found exactly if its first string is supported (`nodeCalls_device_iff`).  Nodes whose name begins
with `memory` are not looked at.
-/

namespace Hyperion.Hal.Dtb

open Hyperion.Lib

/-- What a node is taken for. -/
inductive Device where
  | gic (kind : IntcKind)
  | uart (kind : ConsoleKind)
  deriving DecidableEq, Repr

/-- The strings that are supported. -/
def supported : List (List String × Device) :=
  [(["arm,gic-v3"], .gic .gicV3),
    (["arm,gic-400", "arm,cortex-a15-gic", "arm,cortex-a9-gic", "arm,gic"], .gic .gicV2),
    (["arm,pl011", "arm,primecell"], .uart .pl011),
    (["ns16550", "ns16550a", "snps,dw-apb-uart", "fsl,16550", "nvidia,tegra20-uart"],
      .uart .ns16550),
    (["brcm,bcm2835-aux-uart", "brcm,bcm2837-aux-uart"], .uart .bcmMiniUart)]

/-- The device that a string stands for. -/
def deviceFor (text : String) : Option Device :=
  supported.findSome? fun (texts, device) => if text ∈ texts then some device else none

/-- The device that the bytes of a string stand for. -/
def deviceOf (bytes : List UInt8) : Option Device := (fromUtf8 bytes).bind deviceFor

/-- The strings of a `compatible`. -/
def stringsOf (value : List UInt8) : List (List UInt8) := value.splitOn 0

namespace Place

/-- The strings of a node. -/
def strings (place : Place) : List (List UInt8) :=
  ((valuesOf "compatible" place.props).getLast?.map stringsOf).getD []

/-- The string that the walk keeps. -/
def firstString (place : Place) : String :=
  ((valuesOf "compatible" place.props).getLast?.map fun value => (textOf value).getD "").getD ""

/-- The device of a node: its first string that is supported decides. -/
def device? (place : Place) : Option Device := place.strings.findSome? deviceOf

/-- No string of the node is supported, or the first one is and the node is not taken for
memory. -/
def FirstDecides (place : Place) : Prop :=
  (∀ text ∈ place.strings, deviceOf text = none) ∨
    startsWith place.name "memory" = false ∧ ∃ text ∈ place.strings.head?, deviceOf text ≠ none

end Place

/-! ## What the parser does with a device -/

/-- The branch that `act_on_node` takes for a node. -/
def NodeCall.device? (call : NodeCall) : Option Device :=
  if startsWith call.name "memory" then none
  else if compatibleMatches call.compatible ["arm,gic-v3"] then some (.gic .gicV3)
  else if compatibleMatches call.compatible
      ["arm,gic-400", "arm,cortex-a15-gic", "arm,cortex-a9-gic", "arm,gic"] then
    some (.gic .gicV2)
  else (uartKindFor call.compatible).map .uart

/-- A node with a register range becomes the interrupt controller if it is taken for one, and it is
considered as the console if it is taken for a UART. -/
structure NodeCall.ActsAs (call : NodeCall) (device : Option Device) (base size : UInt64) :
    Prop where
  intc : ∀ info kind, device = some (.gic kind) →
    (actOnNode info call).intc = ⟨kind, ⟨base, size⟩, info.intc.secondary⟩
  intc_kept : ∀ info, (∀ kind, device ≠ some (.gic kind)) → (actOnNode info call).intc = info.intc
  uart : ∀ kind, device = some (.uart kind) → call.uart? = some ⟨kind, ⟨base, size⟩, call.clockHz⟩
  uart_none : (∀ kind, device ≠ some (.uart kind)) → call.uart? = none

theorem uartOf_some (compatible : String) (base size : UInt64) (clockHz : UInt32) :
    uartOf compatible (some (base, size)) clockHz =
      (uartKindFor compatible).map fun kind => ⟨kind, ⟨base, size⟩, clockHz⟩ := by
  unfold uartOf
  cases uartKindFor compatible with
  | none => rfl
  | some kind => rfl

variable {call : NodeCall}

/-- Behind the branches for controllers, the controller is kept. -/
theorem intc_actOnNode {info : BootInfo} (hdevice : ∀ kind, call.device? ≠ some (.gic kind)) :
    (actOnNode info call).intc = info.intc := by
  refine actOnNode_rule (P := fun next => next.intc = info.intc) rfl (fun _ _ => rfl) ?_
    (fun _ => rfl) (fun _ => rfl) fun _ => rfl
  intro hmemory hgic
  by_cases hv3 : compatibleMatches call.compatible ["arm,gic-v3"] = true
  · exact absurd (by simp [NodeCall.device?, hmemory, hv3]) (hdevice .gicV3)
  · have hv2 := hgic.resolve_left hv3
    exact absurd (by simp [NodeCall.device?, hmemory, hv3, hv2]) (hdevice .gicV2)

/-- A controller is no UART. -/
theorem actsAs_gic {base size : UInt64} {kind : IntcKind} {texts : List String}
    (hmatches : compatibleMatches call.compatible texts = true)
    (hother : ∀ text ∈ texts, uartKindFor text = none)
    (hintc : ∀ info, (actOnNode info call).intc = ⟨kind, ⟨base, size⟩, info.intc.secondary⟩) :
    call.ActsAs (some (.gic kind)) base size where
  intc := by
    rintro info kind ⟨⟩
    exact hintc info
  intc_kept := fun info hnone => absurd rfl (hnone kind)
  uart := fun kind heq => by cases heq
  uart_none := fun _ => by
    rw [NodeCall.uart?, uartOf_of_none (uartKindFor_of_matches hmatches hother), ite_self]

/-- What is done with a node is what it is taken for. -/
theorem actsAs_device {base size : UInt64} (hreg : call.reg = some (base, size)) :
    call.ActsAs call.device? base size := by
  have hkept := fun info => @intc_actOnNode call info
  obtain ⟨name, compatible, reg, clockHz, fb, stdoutPath, inChosen⟩ := call
  dsimp only at hreg
  subst hreg
  unfold NodeCall.device? at hkept ⊢
  dsimp only at hkept ⊢
  by_cases hmemory : startsWith name "memory" = true
  · rw [if_pos hmemory] at hkept ⊢
    refine ⟨?_, fun info hnone => hkept info hnone, ?_, fun _ => if_pos hmemory⟩
    · intro info kind heq
      cases heq
    · intro kind heq
      cases heq
  rw [if_neg hmemory] at hkept ⊢
  by_cases hv3 : compatibleMatches compatible ["arm,gic-v3"] = true
  · rw [if_pos hv3]
    refine actsAs_gic hv3 (by decide +kernel) fun info => ?_
    delta actOnNode
    dsimp only
    rw [if_neg hmemory, if_pos hv3]
  rw [if_neg hv3] at hkept ⊢
  by_cases hv2 : compatibleMatches compatible
      ["arm,gic-400", "arm,cortex-a15-gic", "arm,cortex-a9-gic", "arm,gic"] = true
  · rw [if_pos hv2]
    refine actsAs_gic hv2 (by decide +kernel) fun info => ?_
    delta actOnNode
    dsimp only
    rw [if_neg hmemory, if_neg hv3, if_pos hv2]
  · rw [if_neg hv2] at hkept ⊢
    have huart : NodeCall.uart? ⟨name, compatible, some (base, size), clockHz, fb, stdoutPath,
        inChosen⟩ = (uartKindFor compatible).map fun kind => ⟨kind, ⟨base, size⟩, clockHz⟩ := by
      rw [NodeCall.uart?, if_neg hmemory, uartOf_some]
    refine ⟨?_, fun info hnone => hkept info hnone, ?_, ?_⟩
    · intro info kind heq
      obtain ⟨_, _, hgic⟩ := Option.map_eq_some_iff.mp heq
      cases hgic
    · intro kind heq
      obtain ⟨_, hkind, hdevice⟩ := Option.map_eq_some_iff.mp heq
      cases hdevice
      rw [huart, hkind]
      rfl
    · intro hnone
      rw [huart, Option.map_eq_none_iff]
      cases hkind : uartKindFor compatible with
      | none => rfl
      | some kind => exact absurd (by rw [hkind]; rfl) (hnone kind)

/-! ## The string that the walk keeps -/

theorem compatibleMatches_iff (text : String) (texts : List String) :
    compatibleMatches text texts = true ↔ text ∈ texts := by
  rw [compatibleMatches, List.any_eq_true]
  constructor
  · rintro ⟨wanted, hwanted, heq⟩
    rw [← eq_of_beq heq]
    exact hwanted
  · intro hmem
    exact ⟨text, hmem, beq_self_eq_true text⟩

/-- The branches are those for the strings that are supported. -/
theorem device_eq (call : NodeCall) : call.device? =
    if startsWith call.name "memory" then none else deviceFor call.compatible := by
  unfold NodeCall.device? deviceFor supported uartKindFor
  simp only [compatibleMatches_iff, List.findSome?_cons, List.findSome?_nil]
  repeat' split
  all_goals simp_all

theorem head_stringsOf (value : List UInt8) :
    (stringsOf value).head? = some (value.takeWhile (· != 0)) := by
  unfold stringsOf List.splitOn
  induction value with
  | nil => rfl
  | cons byte value ih =>
    rw [List.splitOnP_cons_eq_if_modifyHead, List.takeWhile_cons]
    by_cases hzero : byte = 0
    · simp [hzero]
    · simp [hzero, List.head?_modifyHead, ih]

theorem compatible_withProp (frame parent : Frame) (p : String × List UInt8) :
    (frame.withProp parent p.1 p.2).compatible =
      (if p.1 = "compatible" then some ((textOf p.2).getD "") else none).getD frame.compatible := by
  by_cases hname : p.1 = "compatible"
  · rw [Frame.withProp, hname]
    rfl
  · rw [if_neg hname]
    exact Frame.withProp_rule (P := fun next => next.compatible = frame.compatible) rfl
      (fun _ _ => rfl) (fun _ _ => rfl) (fun h => absurd h hname) (fun _ _ => rfl) (fun _ _ => rfl)
      (fun _ _ => rfl) parent p.2

theorem NodeCall.IsFor.compatible_eq {place : Place} (hfor : call.IsFor place) :
    call.compatible = place.firstString := by
  obtain ⟨parent, stdoutPath, inChosen, _, rfl⟩ := hfor
  have hlast := field_ownFrame Frame.compatible (f := fun value => some ((textOf value).getD ""))
    (compatible_withProp · parent) place.name place.props
  rwa [List.filterMap_eq_map', List.getLast?_map] at hlast

/-- The walk looks at the first string. -/
theorem NodeCall.IsFor.deviceFor_eq {place : Place} (hfor : call.IsFor place) :
    deviceFor call.compatible = place.strings.head?.bind deviceOf := by
  rw [hfor.compatible_eq, Place.firstString, Place.strings]
  cases (valuesOf "compatible" place.props).getLast? with
  | none => rfl
  | some value =>
    rw [Option.map_some, Option.map_some, Option.getD_some, Option.getD_some, head_stringsOf,
      Option.bind_some, deviceOf, textOf]
    cases fromUtf8 (value.takeWhile (· != 0)) with
    | none => rfl
    | some text => rfl

/-- Taking the first element only. -/
theorem head_bind_eq_findSome_iff {α β : Type} (f : α → Option β) (list : List α) (hidden : Bool) :
    (if hidden then none else list.head?.bind f) = list.findSome? f ↔
      (∀ a ∈ list, f a = none) ∨ hidden = false ∧ ∃ a ∈ list.head?, f a ≠ none := by
  cases list with
  | nil => simp
  | cons a list =>
    rw [List.findSome?_cons, List.head?_cons, Option.bind_some]
    cases ha : f a with
    | none => simp [ha, eq_comm (a := none)]
    | some b => cases hidden <;> simp [ha]

/-- **The device of each node.**  It is found exactly if the first string decides. -/
theorem nodeCalls_device_iff {dtbAddr : UInt64} {memory : List UInt8} {root : Node}
    (haddr : dtbAddr ≠ 0) (htree : HoldsTree memory root) :
    List.Forall₂ (fun call place => call.name = place.name ∧
        ∀ base size, call.reg = some (base, size) → call.ActsAs call.device? base size ∧
          (call.device? = place.device? ↔ place.FirstDecides))
      (nodeCalls dtbAddr memory) root.places := by
  refine (forall₂_nodeCalls_places haddr htree).imp fun call place hfor => ⟨hfor.name_eq, ?_⟩
  refine fun base size hreg => ⟨actsAs_device hreg, ?_⟩
  rw [device_eq, hfor.name_eq, hfor.deviceFor_eq]
  exact head_bind_eq_findSome_iff deviceOf place.strings _

theorem nodeCalls_device_iff_twoUarts :
    List.Forall₂ (fun call place => call.name = place.name ∧
        ∀ base size, call.reg = some (base, size) → call.ActsAs call.device? base size ∧
          (call.device? = place.device? ↔ place.FirstDecides))
      (nodeCalls 0x48000000 twoUarts.blob) twoUarts.places :=
  nodeCalls_device_iff (by decide) holdsTree_twoUarts

/-- A UART with the string of its vendor in front of a supported one. -/
def vendorUart : Node :=
  .mk "" [] [.mk "serial@fe650000"
    [("compatible", utf8 "vendor,soc-uart" ++ 0 :: (utf8 "snps,dw-apb-uart" ++ [0])),
      ("reg", [0, 0, 0, 0, 0xfe, 0x65, 0, 0, 0, 0, 1, 0])] []]

theorem holdsTree_vendorUart : HoldsTree vendorUart.blob vendorUart :=
  holdsTree_blob vendorUart (by decide +kernel)

/-- The UART is not considered, and the console is the fallback's. -/
theorem vendor_uart_missed :
    vendorUart.places.map Place.device? = [some (.uart .ns16550), none] ∧
      (nodeCalls 0x48000000 vendorUart.blob).map (fun call => (call.reg, call.device?)) =
        [(some (0xfe650000, 0x100), none), (none, none)] ∧
      ∃ info, parseOrFallback 0x48000000 vendorUart.blob = .ok info ∧
        info.console = fallbackConsole := by
  have haddr : (0x48000000 : UInt64) ≠ 0 := by decide
  refine ⟨rfl, ?_, ?_⟩
  · rw [nodeCalls_of_tree haddr holdsTree_vendorUart]
    decide +kernel
  · obtain ⟨info, hparse, hconsole⟩ := console_of_tree haddr holdsTree_vendorUart
    refine ⟨info, hparse, ?_⟩
    rw [hconsole]
    decide +kernel

end Hyperion.Hal.Dtb
