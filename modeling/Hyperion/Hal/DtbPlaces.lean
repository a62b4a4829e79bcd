import Hyperion.Hal.DtbCalls
import Hyperion.Hal.DtbConsole

/-!
# Where a node stands in the tree

The walk keeps the cell counts of the open nodes in two arrays.  A node that opens takes over the
counts of its parent, and its own properties replace them.  So the counts at a node depend on all
nodes above it: each is that of the nearest node that has the property.

`Node.places` lists the nodes down to depth seven in the order they close, each with the properties
of the nodes above it.  The calls of the walk are made for these places one by one
(`forall₂_nodeCalls_places`).
-/

namespace Hyperion.Hal.Dtb

open Hyperion.Lib

/-- A node and the nodes above it. -/
structure Place where
  name : String
  props : List (String × List UInt8)
  /-- The properties of the nodes above, those of the parent first. -/
  ancestors : List (List (String × List UInt8))
  deriving DecidableEq

mutual

/-- The places of a node at `depth` and of the nodes below it, in the order they close. -/
def Node.placesFrom (depth : ℕ) (ancestors : List (List (String × List UInt8))) :
    Node → List Place
  | .mk name props children =>
    if maxDepth ≤ depth then []
    else Node.placesAll (depth + 1) (props :: ancestors) children ++ [⟨name, props, ancestors⟩]

def Node.placesAll (depth : ℕ) (ancestors : List (List (String × List UInt8))) :
    List Node → List Place
  | [] => []
  | node :: nodes => node.placesFrom depth ancestors ++ Node.placesAll depth ancestors nodes

end

def Node.places (root : Node) : List Place := root.placesFrom 1 []

mutual

/-- The places of a node and of all nodes below it, in document order. -/
def Node.everyFrom (ancestors : List (List (String × List UInt8))) : Node → List Place
  | .mk name props children =>
    ⟨name, props, ancestors⟩ :: Node.everyAll (props :: ancestors) children

def Node.everyAll (ancestors : List (List (String × List UInt8))) : List Node → List Place
  | [] => []
  | node :: nodes => node.everyFrom ancestors ++ Node.everyAll ancestors nodes

end

def Node.every (root : Node) : List Place := root.everyFrom []

theorem placesAll_subperm {nodes : List Node}
    (hnodes : ∀ node ∈ nodes, ∀ depth ancestors,
      (node.placesFrom depth ancestors).Subperm (node.everyFrom ancestors))
    (depth : ℕ) (ancestors : List (List (String × List UInt8))) :
    (Node.placesAll depth ancestors nodes).Subperm (Node.everyAll ancestors nodes) := by
  induction nodes with
  | nil => exact List.Subperm.refl _
  | cons node nodes ih =>
    exact (hnodes node List.mem_cons_self depth ancestors).append
      (ih fun n hn => hnodes n (List.mem_cons_of_mem _ hn))

theorem placesFrom_subperm (node : Node) : ∀ depth ancestors,
    (node.placesFrom depth ancestors).Subperm (node.everyFrom ancestors) := by
  induction node using Node.induction with
  | hnode name props children ih =>
    intro depth ancestors
    rw [Node.placesFrom, Node.everyFrom]
    split
    case isTrue => exact List.nil_subperm
    case isFalse =>
      have hbelow := placesAll_subperm ih (depth + 1) (props :: ancestors)
      exact (hbelow.append (List.Subperm.refl _)).trans List.perm_append_comm.subperm

/-- The places that the walk reports are among all places. -/
theorem places_subperm (root : Node) : root.places.Subperm root.every :=
  placesFrom_subperm root 1 []

/-- The values of the properties with a name. -/
def valuesOf (pname : String) (props : List (String × List UInt8)) : List (List UInt8) :=
  (props.filter fun p => p.1 = pname).map Prod.snd

theorem filterMap_named {β : Type} (pname : String) (f : List UInt8 → Option β)
    (props : List (String × List UInt8)) :
    (props.filterMap fun p => if p.1 = pname then f p.2 else none) =
      (valuesOf pname props).filterMap f := by
  rw [valuesOf, List.filterMap_map, List.filterMap_filter]
  refine List.filterMap_congr fun p _ => ?_
  simp

/-! ## Counts -/

/-- The count that the properties of a node give, if they give one. -/
def countOf (pname : String) (props : List (String × List UInt8)) : Option UInt32 :=
  ((valuesOf pname props).filterMap fun value => word32 value 0).getLast?

/-- The count of the nearest of some nodes that gives one. -/
def nearest (pname : String) (standard : UInt32) (ancestors : List (List (String × List UInt8))) :
    UInt32 :=
  (ancestors.findSome? (countOf pname)).getD standard

theorem nearest_cons (pname : String) (standard : UInt32) (props : List (String × List UInt8))
    (ancestors : List (List (String × List UInt8))) :
    nearest pname standard (props :: ancestors) =
      (countOf pname props).getD (nearest pname standard ancestors) := by
  rw [nearest, nearest, List.findSome?_cons]
  cases countOf pname props with
  | none => rfl
  | some count => rfl

/-- A frame has the counts of the nearest nodes. -/
structure Frame.Inherits (frame : Frame) (ancestors : List (List (String × List UInt8))) :
    Prop where
  address_eq : frame.addressCells = nearest "#address-cells" 2 ancestors
  size_eq : frame.sizeCells = nearest "#size-cells" 1 ancestors

/-- A field that the properties of one name set is set by the last of them that does. -/
theorem field_ownFrame {β : Type} (field : Frame → β) {pname : String} {f : List UInt8 → Option β}
    {parent : Frame} (hset : ∀ (frame : Frame) (p : String × List UInt8),
      field (frame.withProp parent p.1 p.2) =
        (if p.1 = pname then f p.2 else none).getD (field frame))
    (name : String) (props : List (String × List UInt8)) :
    field (ownFrame parent name props) =
      ((valuesOf pname props).filterMap f).getLast?.getD (field (parent.child name)) := by
  rw [← filterMap_named, ← foldl_pick, ownFrame]
  exact (List.foldl_hom field fun frame p => (hset frame p).symm).symm

theorem addressCells_withProp (frame parent : Frame) (p : String × List UInt8) :
    (frame.withProp parent p.1 p.2).addressCells =
      (if p.1 = "#address-cells" then word32 p.2 0 else none).getD frame.addressCells := by
  by_cases hname : p.1 = "#address-cells"
  · rw [Frame.withProp, if_pos hname, if_pos hname, Frame.withWord]
    cases word32 p.2 0 with
    | none => rfl
    | some v => rfl
  · rw [if_neg hname]
    exact Frame.withProp_rule (P := fun next => next.addressCells = frame.addressCells) rfl
      (fun h => absurd h hname) (fun _ _ => rfl) (fun _ _ => rfl) (fun _ _ => rfl) (fun _ _ => rfl)
      (fun _ _ => rfl) parent p.2

theorem sizeCells_withProp (frame parent : Frame) (p : String × List UInt8) :
    (frame.withProp parent p.1 p.2).sizeCells =
      (if p.1 = "#size-cells" then word32 p.2 0 else none).getD frame.sizeCells := by
  by_cases hname : p.1 = "#size-cells"
  · rw [Frame.withProp, if_neg (by rw [hname]; decide), if_pos hname, if_pos hname, Frame.withWord]
    cases word32 p.2 0 with
    | none => rfl
    | some v => rfl
  · rw [if_neg hname]
    exact Frame.withProp_rule (P := fun next => next.sizeCells = frame.sizeCells) rfl
      (fun _ _ => rfl) (fun h => absurd h hname) (fun _ _ => rfl) (fun _ _ => rfl) (fun _ _ => rfl)
      (fun _ _ => rfl) parent p.2

theorem Frame.Inherits.ownFrame {parent : Frame} {ancestors : List (List (String × List UInt8))}
    (hparent : parent.Inherits ancestors) (name : String) (props : List (String × List UInt8)) :
    (ownFrame parent name props).Inherits (props :: ancestors) := by
  refine ⟨?_, ?_⟩
  · rw [nearest_cons, ← hparent.address_eq]
    exact field_ownFrame Frame.addressCells (addressCells_withProp · parent) name props
  · rw [nearest_cons, ← hparent.size_eq]
    exact field_ownFrame Frame.sizeCells (sizeCells_withProp · parent) name props

/-! ## The calls for the places -/

/-- The call is the one for the place. -/
def NodeCall.IsFor (call : NodeCall) (place : Place) : Prop :=
  ∃ (parent : Frame) (stdoutPath : String) (inChosen : Bool), parent.Inherits place.ancestors ∧
    call = (ownFrame parent place.name place.props).call stdoutPath inChosen

theorem NodeCall.IsFor.name_eq {call : NodeCall} {place : Place} (hfor : call.IsFor place) :
    call.name = place.name := by
  obtain ⟨parent, stdoutPath, inChosen, _, rfl⟩ := hfor
  exact name_ownFrame parent place.name place.props

/-- What depends on the places only can be read off them. -/
theorem filterMap_of_isFor {β : Type} {calls : List NodeCall} {places : List Place}
    {f : NodeCall → Option β} {g : Place → Option β}
    (hfor : List.Forall₂ NodeCall.IsFor calls places)
    (hfg : ∀ call place, call.IsFor place → f call = g place) :
    calls.filterMap f = places.filterMap g := by
  induction hfor with
  | nil => rfl
  | cons hcall _ ih => rw [List.filterMap_cons, List.filterMap_cons, hfg _ _ hcall, ih]

theorem forall₂_visitAll_placesAll {nodes : List Node}
    (hnodes : ∀ node ∈ nodes, ∀ depth parent ambient ancestors, Frame.Inherits parent ancestors →
      List.Forall₂ NodeCall.IsFor (node.visit depth parent ambient).1
        (node.placesFrom depth ancestors))
    (depth : ℕ) {parent : Frame} (ambient : Ambient)
    {ancestors : List (List (String × List UInt8))} (hparent : parent.Inherits ancestors) :
    List.Forall₂ NodeCall.IsFor (Node.visitAll depth parent ambient nodes).1
      (Node.placesAll depth ancestors nodes) := by
  induction nodes generalizing ambient with
  | nil => exact .nil
  | cons node nodes ih =>
    have hfirst := hnodes node List.mem_cons_self depth parent ambient ancestors hparent
    exact List.rel_append hfirst (ih (fun n hn => hnodes n (List.mem_cons_of_mem _ hn)) _)

theorem forall₂_visit_places (node : Node) : ∀ depth parent ambient ancestors,
    Frame.Inherits parent ancestors →
      List.Forall₂ NodeCall.IsFor (node.visit depth parent ambient).1
        (node.placesFrom depth ancestors) := by
  induction node using Node.induction with
  | hnode name props children ih =>
    intro depth parent ambient ancestors hparent
    rw [Node.visit, Node.placesFrom]
    by_cases hdeep : maxDepth ≤ depth
    · rw [if_pos hdeep, if_pos hdeep]
      exact .nil
    · rw [if_neg hdeep, if_neg hdeep]
      have hbelow := forall₂_visitAll_placesAll ih (depth + 1) (ambient.enter name props)
        (hparent.ownFrame name props)
      exact List.rel_append hbelow (.cons ⟨parent, _, _, hparent, rfl⟩ .nil)

/-- The walk over a tree calls for each of its places. -/
theorem forall₂_nodeCalls_places {dtbAddr : UInt64} {memory : List UInt8} {root : Node}
    (haddr : dtbAddr ≠ 0) (htree : HoldsTree memory root) :
    List.Forall₂ NodeCall.IsFor (nodeCalls dtbAddr memory) root.places := by
  rw [nodeCalls_of_tree haddr htree]
  exact forall₂_visit_places root 1 aboveRoot ⟨"", false⟩ [] ⟨rfl, rfl⟩

end Hyperion.Hal.Dtb
