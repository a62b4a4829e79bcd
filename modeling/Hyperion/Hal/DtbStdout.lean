import Hyperion.Hal.DtbCells
import Hyperion.Hal.DtbCompatible

/-!
# Whether the UART that `stdout-path` names becomes the console

A UART is a node with some supported string in its `compatible` and an entry in its `reg`
(`Place.uart?`); its registers are the first entry, read with the cell counts of its parent.  The
`stdout-path` of `/chosen` names the UART whose name is the last component of the path.

The parser decides at each node that closes, with the path it has seen so far, and takes a node for
what the first string and the counts of the walk make of it (`Place.seen?`).  So the named UART
becomes the console if it is taken for what it is, and

* closes behind the path, and no UART behind it has a name that matches the path; or
* closes in front of the path, no UART behind the path matches, and in front of the path it is the
  first one that does not look like the fallback's, or the last one if all do.

Otherwise another UART or the fallback is the console, which may have the same registers by chance
(`console_named`).
-/

namespace Hyperion.Hal.Dtb

open Hyperion.Lib

/-! ## UARTs -/

/-- A UART: what it is, its registers and its clock. -/
structure Uart where
  kind : ConsoleKind
  regs : Range
  clockHz : UInt32
  deriving DecidableEq, Repr

def uartAs (spec : ConsoleSpec) : Uart :=
  ⟨spec.kind, ⟨spec.regs.base.toNat, spec.regs.size.toNat⟩, spec.clockHz⟩

namespace Place

def clock (place : Place) : UInt32 := (countOf "clock-frequency" place.props).getD 0

/-- The UART that a node is. -/
def uart? (place : Place) : Option Uart :=
  match place.device?, place.entries.head? with
  | some (.uart kind), some regs => some ⟨kind, regs, place.clock⟩
  | _, _ => none

/-- The UART that the parser takes a node for. -/
def seen? (place : Place) : Option ConsoleSpec :=
  if startsWith place.name "memory" then none
  else uartOf place.firstString place.read? place.clock

end Place

theorem clock_withProp (frame parent : Frame) (p : String × List UInt8) :
    (frame.withProp parent p.1 p.2).clock =
      (if p.1 = "clock-frequency" then word32 p.2 0 else none).getD frame.clock := by
  by_cases hname : p.1 = "clock-frequency"
  · have hwith : frame.withProp parent p.1 p.2 =
        frame.withWord p.2 fun v frame => { frame with clock := v } := by
      rw [Frame.withProp, hname]
      rfl
    rw [hwith, if_pos hname, Frame.withWord]
    cases word32 p.2 0 with
    | none => rfl
    | some v => rfl
  · rw [if_neg hname]
    exact Frame.withProp_rule (P := fun next => next.clock = frame.clock) rfl (fun _ _ => rfl)
      (fun _ _ => rfl) (fun _ _ => rfl) (fun _ _ => rfl) (fun h => absurd h hname) (fun _ _ => rfl)
      parent p.2

theorem NodeCall.IsFor.uart_eq {call : NodeCall} {place : Place} (hfor : call.IsFor place) :
    call.uart? = place.seen? := by
  have hclock : call.clockHz = place.clock := by
    obtain ⟨parent, stdoutPath, inChosen, _, rfl⟩ := hfor
    exact field_ownFrame Frame.clock (clock_withProp · parent) place.name place.props
  rw [NodeCall.uart?, Place.seen?, hfor.name_eq, hfor.compatible_eq, hfor.reg_eq, hclock]

/-! ## Trees with a `stdout-path` -/

/-- A tree with a `stdout-path` in `/chosen`, and in no other node where it would count. -/
structure StdoutTree where
  name : String
  props : List (String × List UInt8)
  /-- The nodes in front of `/chosen`. -/
  before : List Node
  /-- The properties of `/chosen` in front of its `stdout-path`. -/
  early : List (String × List UInt8)
  value : List UInt8
  late : List (String × List UInt8)
  /-- The nodes inside `/chosen`. -/
  inside : List Node
  /-- The nodes behind `/chosen`. -/
  after : List Node
  path : String
  name_ne : name ≠ "chosen"
  text : textOf value = some path
  before_lack : Node.LackStdout false before
  early_lack : ∀ p ∈ early, p.1 ≠ "stdout-path"
  late_lack : ∀ p ∈ late, p.1 ≠ "stdout-path"
  inside_lack : Node.LackStdout true inside
  after_lack : Node.LackStdout false after

namespace StdoutTree

variable (tree : StdoutTree)

def chosen : Node :=
  .mk "chosen" (tree.early ++ ("stdout-path", tree.value) :: tree.late) tree.inside

def root : Node := .mk tree.name tree.props (tree.before ++ tree.chosen :: tree.after)

/-- The last component of the path, without options. -/
def component : String := afterLast '/' (beforeFirst ':' tree.path)

/-- The UARTs with the name the path ends with. -/
def named : List Place :=
  tree.root.every.filter fun place => place.name = tree.component ∧ place.uart? ≠ none

/-- The nodes that close in front of `/chosen`. -/
def placesBefore : List Place := Node.placesAll 2 [tree.props] tree.before

/-- The nodes of `/chosen`, those behind it, and the root. -/
def placesBehind : List Place :=
  tree.chosen.placesFrom 2 [tree.props] ++ Node.placesAll 2 [tree.props] tree.after ++
    [⟨tree.name, tree.props, []⟩]

/-- The nodes that close while no path is known.  An empty path is as good as none. -/
def front : List Place :=
  if tree.path = "" then tree.placesBefore ++ tree.placesBehind else tree.placesBefore

/-- The nodes that close when the path is known. -/
def behind : List Place := if tree.path = "" then [] else tree.placesBehind

/-- The UART a node is picked as because its name matches the path. -/
def picked (place : Place) : Option ConsoleSpec :=
  if pathMatchesNode tree.path place.name then place.seen? else none

/-- What a place is taken for becomes the console.  Behind the path, it is the last that is picked;
in front of it, all UARTs before it look like the fallback's, and if it does so itself it is the
last one. -/
def Prevails (place : Place) : Prop :=
  (∃ before after, tree.behind = before ++ place :: after ∧ place.name ≠ "" ∧
      ∀ other ∈ after, tree.picked other = none) ∨
    ∃ before after, tree.front = before ++ place :: after ∧
      (∀ other ∈ tree.behind, tree.picked other = none) ∧
      (∀ spec ∈ before.filterMap Place.seen?, Lookalike spec) ∧
      ∀ spec ∈ place.seen?, Lookalike spec → after.filterMap Place.seen? = []

/-- The UART at a place is taken for what it is, and that becomes the console. -/
structure Wins (place : Place) : Prop where
  seen : place.seen?.map uartAs = place.uart?
  prevails : tree.Prevails place

/-- No other node is taken for the UART at a place, and the fallback's console is another one. -/
structure Unmistakable (place : Place) : Prop where
  others : ∀ other ∈ tree.front ++ tree.behind, other.seen?.map uartAs = place.uart? →
    other = place
  fallback : some (uartAs fallbackConsole) ≠ place.uart?

end StdoutTree

/-! ## The console as the places leave it -/

theorem visitAll_append (depth : ℕ) (parent : Frame) (ambient : Ambient) (front back : List Node) :
    Node.visitAll depth parent ambient (front ++ back) =
      ((Node.visitAll depth parent ambient front).1 ++
        (Node.visitAll depth parent (Node.visitAll depth parent ambient front).2 back).1,
        (Node.visitAll depth parent (Node.visitAll depth parent ambient front).2 back).2) := by
  induction front generalizing ambient with
  | nil => rfl
  | cons node front ih =>
    rw [List.cons_append, Node.visitAll, ih]
    simp only [Node.visitAll, List.append_assoc]

namespace StdoutTree

variable (tree : StdoutTree)

def rootFrame : Frame := ownFrame aboveRoot tree.name tree.props

/-- What is visited in front of `/chosen`. -/
def visitBefore : List NodeCall × Ambient :=
  Node.visitAll 2 tree.rootFrame ⟨"", false⟩ tree.before

def visitChosen : List NodeCall × Ambient :=
  tree.chosen.visit 2 tree.rootFrame tree.visitBefore.2

def visitAfter : List NodeCall × Ambient :=
  Node.visitAll 2 tree.rootFrame tree.visitChosen.2 tree.after

theorem keepsPath_before : KeepsPath false "" tree.visitBefore :=
  keepsPath_visitAll (fun node _ => keepsPath_visit node) 2 tree.rootFrame ⟨"", false⟩
    tree.before_lack nofun

theorem stdoutPath_chosen (ambient : Ambient) :
    (ambient.enter "chosen" (tree.early ++ ("stdout-path", tree.value) :: tree.late)).stdoutPath =
      tree.path := by
  have hin : (ambient.inChosen || ("chosen" == "chosen")) = true := by simp
  simp only [Ambient.enter, hin]
  rw [List.foldl_append, List.foldl_cons, stdoutPath_fold fun _ => tree.late_lack, stdoutAfter,
    if_pos ⟨rfl, rfl⟩, tree.text]
  rfl

theorem keepsPath_chosen : KeepsPath false tree.path tree.visitChosen := by
  have hbelow := keepsPath_visitAll (fun node _ => keepsPath_visit node) 3
    (ownFrame tree.rootFrame "chosen" (tree.early ++ ("stdout-path", tree.value) :: tree.late))
    (tree.visitBefore.2.enter "chosen" (tree.early ++ ("stdout-path", tree.value) :: tree.late))
    tree.inside_lack (fun _ => rfl)
  rw [tree.stdoutPath_chosen] at hbelow
  simp only [visitChosen, chosen, Node.visit, if_neg (show ¬maxDepth ≤ 2 by decide)]
  refine ⟨?_, hbelow.path, by simp [Ambient.leave]⟩
  intro call hcall
  rcases List.mem_append.mp hcall with hcall | hcall
  · exact hbelow.calls call hcall
  · rw [List.mem_singleton.mp hcall]
    exact hbelow.path

theorem keepsPath_after : KeepsPath false tree.path tree.visitAfter := by
  have hafter := keepsPath_visitAll (fun node _ => keepsPath_visit node) 2 tree.rootFrame
    tree.visitChosen.2 tree.after_lack tree.keepsPath_chosen.chosen
  rwa [tree.keepsPath_chosen.path] at hafter

/-- What is visited from `/chosen` on. -/
def callsBehind : List NodeCall :=
  tree.visitChosen.1 ++ tree.visitAfter.1 ++
    [tree.rootFrame.call tree.visitAfter.2.stdoutPath tree.visitAfter.2.inChosen]

theorem calls_root : tree.root.calls = tree.visitBefore.1 ++ tree.callsBehind := by
  have henter : (⟨"", false⟩ : Ambient).enter tree.name tree.props = ⟨"", false⟩ := by
    have hout : (false || tree.name == "chosen") = false := by simp [tree.name_ne]
    simp only [Ambient.enter, hout]
    rw [stdoutPath_fold fun hin => absurd hin Bool.false_ne_true]
  have hdepth : ¬maxDepth ≤ 1 := by decide
  rw [Node.calls, root]
  simp only [Node.visit, if_neg hdepth, henter, visitAll_append, Node.visitAll]
  simp only [callsBehind, visitBefore, visitChosen, visitAfter, rootFrame, List.append_assoc]

theorem stdoutPath_behind : ∀ call ∈ tree.callsBehind, call.stdoutPath = tree.path := by
  intro call hcall
  rcases List.mem_append.mp hcall with hcall | hcall
  · rcases List.mem_append.mp hcall with hcall | hcall
    · exact tree.keepsPath_chosen.calls call hcall
    · exact tree.keepsPath_after.calls call hcall
  · rw [List.mem_singleton.mp hcall]
    exact tree.keepsPath_after.path

theorem inherits_rootFrame : tree.rootFrame.Inherits [tree.props] :=
  Frame.Inherits.ownFrame ⟨rfl, rfl⟩ tree.name tree.props

theorem isFor_before : List.Forall₂ NodeCall.IsFor tree.visitBefore.1 tree.placesBefore :=
  forall₂_visitAll_placesAll (fun node _ => forall₂_visit_places node) 2 _ tree.inherits_rootFrame

theorem isFor_behind : List.Forall₂ NodeCall.IsFor tree.callsBehind tree.placesBehind := by
  have hchosen := forall₂_visit_places tree.chosen 2 _ tree.visitBefore.2 _ tree.inherits_rootFrame
  have hafter : List.Forall₂ NodeCall.IsFor tree.visitAfter.1
      (Node.placesAll 2 [tree.props] tree.after) :=
    forall₂_visitAll_placesAll (fun node _ => forall₂_visit_places node) 2 _ tree.inherits_rootFrame
  exact List.rel_append (List.rel_append hchosen hafter)
    (.cons ⟨aboveRoot, _, _, ⟨rfl, rfl⟩, rfl⟩ .nil)

/-- The last UART that is picked, or what those leave that close while no path is known. -/
theorem console_eq : tree.root.calls.foldl consoleAfter fallbackConsole =
    (tree.behind.filterMap tree.picked).getLast?.getD
      ((tree.front.filterMap Place.seen?).foldl
        (fun current next => if Lookalike current then next else current) fallbackConsole) := by
  have hseen := fun call place (hfor : NodeCall.IsFor call place) => hfor.uart_eq
  have hpicked : ∀ call place, NodeCall.IsFor call place →
      (if pathMatchesNode tree.path call.name then call.uart? else none) = tree.picked place := by
    intro call place hfor
    rw [picked, hfor.name_eq, hfor.uart_eq]
  rw [tree.calls_root, front, behind]
  by_cases hpath : tree.path = ""
  · rw [if_pos hpath, if_pos hpath, foldl_consoleAfter_unset, considered,
      filterMap_of_isFor (List.rel_append tree.isFor_before tree.isFor_behind) hseen]
    · rfl
    · intro call hcall
      rcases List.mem_append.mp hcall with hcall | hcall
      · exact tree.keepsPath_before.calls call hcall
      · rw [tree.stdoutPath_behind call hcall, hpath]
  · rw [if_neg hpath, if_neg hpath, List.foldl_append, foldl_consoleAfter_unset
      tree.keepsPath_before.calls, considered, filterMap_of_isFor tree.isFor_before hseen,
      ← filterMap_of_isFor tree.isFor_behind hpicked, ← foldl_pick]
    apply List.foldl_ext
    intro current call hcall
    rw [consoleAfter, tree.stdoutPath_behind call hcall]
    cases call.uart? with
    | none =>
      rw [ite_self]
      rfl
    | some spec =>
      dsimp only
      rw [if_pos hpath]
      split <;> rfl

end StdoutTree

/-! ## Whether the named UART wins -/

section Replaced

variable {α : Type} {p : α → Prop} [DecidablePred p] {start x : α} {before after : List α}

/-- What replaces a place-holder and is not replaced itself. -/
theorem foldl_replace_of_split (hstart : p start) (hbefore : ∀ y ∈ before, p y)
    (hlast : p x → after = []) :
    (before ++ x :: after).foldl (fun current next => if p current then next else current) start =
      x := by
  rw [foldl_replace_iff start _ hstart]
  by_cases hx : p x
  · rw [hlast hx]
    refine .inr ⟨hx, ?_, by simp⟩
    intro y hy
    rcases List.mem_append.mp hy with hy | hy
    · exact hbefore y hy
    · rwa [List.mem_singleton.mp hy]
  · refine .inl ⟨hx, ?_⟩
    rw [List.find?_eq_some_iff_append]
    exact ⟨by simpa using hx, before, after, rfl, fun y hy => by simpa using hbefore y hy⟩

theorem split_of_foldl_replace {list : List α} (hstart : p start) (hne : x ≠ start)
    (heq : list.foldl (fun current next => if p current then next else current) start = x) :
    ∃ before after, list = before ++ x :: after ∧ (∀ y ∈ before, p y) ∧ (p x → after = []) := by
  rcases (foldl_replace_iff start list hstart x).mp heq with ⟨hx, hfind⟩ | ⟨hx, hall, hlast⟩
  · obtain ⟨_, before, after, rfl, hbefore⟩ := List.find?_eq_some_iff_append.mp hfind
    exact ⟨before, after, rfl, fun y hy => by simpa using hbefore y hy, fun h => absurd h hx⟩
  · cases hlist : list.getLast? with
    | none =>
      rw [hlist] at hlast
      exact absurd hlast.symm hne
    | some last =>
      rw [hlist, Option.getD_some] at hlast
      obtain ⟨before, rfl⟩ := List.getLast?_eq_some_iff.mp (hlast ▸ hlist)
      exact ⟨before, [], rfl, fun y hy => hall y (List.mem_append_left _ hy), fun _ => rfl⟩

end Replaced

namespace StdoutTree

variable {tree : StdoutTree} {place : Place}

theorem pathMatchesNode_component (hpath : tree.path ≠ "") (hname : tree.component ≠ "") :
    pathMatchesNode tree.path tree.component = true := by
  rw [pathMatchesNode, if_neg (not_or.mpr ⟨hpath, hname⟩)]
  exact if_pos rfl

theorem path_ne_of_mem_behind (hplace : place ∈ tree.behind) : tree.path ≠ "" := by
  intro hpath
  rw [behind, if_pos hpath] at hplace
  cases hplace

theorem Prevails.console {spec : ConsoleSpec} (hprevails : tree.Prevails place)
    (hname : place.name = tree.component) (hspec : place.seen? = some spec) :
    tree.root.calls.foldl consoleAfter fallbackConsole = spec := by
  rw [tree.console_eq]
  rcases hprevails with ⟨before, after, hsplit, hne, hafter⟩ | ⟨before, after, hsplit, hnone,
    hbefore, hlast⟩
  · have hmem : place ∈ tree.behind := by simp [hsplit]
    have hpath := path_ne_of_mem_behind hmem
    have hpicked : tree.picked place = some spec := by
      rw [picked, hname, pathMatchesNode_component hpath (hname ▸ hne), if_pos rfl, hspec]
    have hrest : after.filterMap tree.picked = [] := List.filterMap_eq_nil_iff.mpr hafter
    rw [hsplit, List.filterMap_append, List.filterMap_cons, hpicked, hrest]
    simp
  · have hrest : tree.behind.filterMap tree.picked = [] := List.filterMap_eq_nil_iff.mpr hnone
    rw [hrest, hsplit, List.filterMap_append, List.filterMap_cons, hspec]
    exact foldl_replace_of_split (by decide) hbefore (hlast spec hspec)

theorem Prevails.mem (hprevails : tree.Prevails place) : place ∈ tree.front ++ tree.behind := by
  rcases hprevails with ⟨before, after, hsplit, _⟩ | ⟨before, after, hsplit, _⟩
  · simp [hsplit]
  · simp [hsplit]

/-- A console that is not the fallback's comes from a place. -/
theorem prevails_of_console {spec : ConsoleSpec} (hne : spec ≠ fallbackConsole)
    (hconsole : tree.root.calls.foldl consoleAfter fallbackConsole = spec) :
    ∃ place, place.seen? = some spec ∧ tree.Prevails place := by
  rw [tree.console_eq] at hconsole
  cases hlast : (tree.behind.filterMap tree.picked).getLast? with
  | some last =>
    obtain rfl : last = spec := by simpa [hlast] using hconsole
    obtain ⟨specs, hspecs⟩ := List.getLast?_eq_some_iff.mp hlast
    obtain ⟨before, rest, hsplit, _, hrest⟩ := List.filterMap_eq_append_iff.mp hspecs
    obtain ⟨middle, place, after, rfl, _, hpicked, hafter⟩ := List.filterMap_eq_cons_iff.mp hrest
    have hmatches : pathMatchesNode tree.path place.name = true := by
      by_contra hnot
      rw [picked, if_neg hnot] at hpicked
      cases hpicked
    refine ⟨place, by rwa [picked, if_pos hmatches] at hpicked, .inl ?_⟩
    refine ⟨before ++ middle, after, by rw [hsplit, List.append_assoc], ?_,
      List.filterMap_eq_nil_iff.mp hafter⟩
    intro hname
    simp [pathMatchesNode, hname] at hmatches
  | none =>
    have hnone := List.filterMap_eq_nil_iff.mp (List.getLast?_eq_none_iff.mp hlast)
    rw [hlast, Option.getD_none] at hconsole
    obtain ⟨early, late, hsplit, hbefore, hafter⟩ :=
      split_of_foldl_replace (by decide) hne hconsole
    obtain ⟨before, rest, hfront, hearly, hrest⟩ := List.filterMap_eq_append_iff.mp hsplit
    obtain ⟨middle, place, after, rfl, hmiddle, hspec, hlate⟩ :=
      List.filterMap_eq_cons_iff.mp hrest
    refine ⟨place, hspec, .inr ⟨before ++ middle, after, by rw [hfront, List.append_assoc],
      hnone, ?_, ?_⟩⟩
    · rw [List.filterMap_append, List.filterMap_eq_nil_iff.mpr hmiddle, List.append_nil, hearly]
      exact hbefore
    · intro other hother
      rw [hspec] at hother
      cases hother
      rw [hlate]
      exact hafter

end StdoutTree

/-- A tree with these nodes, and with `/chosen` between them. -/
def chosenBetween (before : List Node) (path : String) (after : List Node)
    (htext : textOf (utf8 path ++ [0]) = some path) (hbefore : Node.LackStdout false before)
    (hafter : Node.LackStdout false after) : StdoutTree where
  name := ""
  props := []
  before := before
  early := []
  value := utf8 path ++ [0]
  late := []
  inside := []
  after := after
  path := path
  name_ne := by decide
  text := htext
  before_lack := hbefore
  early_lack := by simp
  late_lack := by simp
  inside_lack := trivial
  after_lack := hafter

/-- Two UARTs, the second one selected, and `/chosen` behind them. -/
def chosenLast : StdoutTree :=
  chosenBetween
    [uartNode "serial@10000000" "ns16550a" [0x10, 0, 0, 0],
      uartNode "uart@20000000" "arm,pl011" [0x20, 0, 0, 0]]
    "/uart@20000000:115200n8" []
    rfl
    ⟨lacksStdout_uartNode _ _ _ _, lacksStdout_uartNode _ _ _ _, trivial⟩ trivial

/-- The selected UART, and behind it one with a longer name. -/
def longerName : StdoutTree :=
  chosenBetween [] "/uart@2000"
    [uartNode "uart@2000" "arm,pl011" [0, 0, 0x20, 0],
      uartNode "uart@20000" "ns16550a" [0, 2, 0, 0]]
    rfl trivial
    ⟨lacksStdout_uartNode _ _ _ _, lacksStdout_uartNode _ _ _ _, trivial⟩

/-- The selected UART below a bus that has the standard counts, and the root has other ones. -/
def socUart : StdoutTree :=
  { chosenBetween [] "/soc/uart@9040000"
      [.mk "soc" [] [uartNode "uart@9040000" "arm,pl011" [0x09, 4, 0, 0]]]
      rfl trivial
      ⟨⟨by simp, lacksStdout_uartNode _ _ _ _, trivial⟩, trivial⟩ with
    props := [("#address-cells", [0, 0, 0, 1])] }

/-- A UART in front of `/chosen`, and behind it the selected one and one with an unlike name. -/
def chosenMiddle : StdoutTree :=
  chosenBetween [uartNode "serial@10000000" "ns16550a" [0x10, 0, 0, 0]] "/uart@20000000:115200n8"
    [uartNode "uart@20000000" "arm,pl011" [0x20, 0, 0, 0],
      uartNode "serial@30000000" "ns16550a" [0x30, 0, 0, 0]]
    rfl ⟨lacksStdout_uartNode _ _ _ _, trivial⟩
    ⟨lacksStdout_uartNode _ _ _ _, lacksStdout_uartNode _ _ _ _, trivial⟩

/-- The place of the selected UART. -/
def selectedPlace : Place :=
  ⟨"uart@20000000", [("compatible", utf8 "arm,pl011" ++ [0]),
    ("reg", [0, 0, 0, 0] ++ [0x20, 0, 0, 0] ++ [0, 0, 1, 0])], [[]]⟩

theorem wins_selectedPlace : chosenMiddle.Wins selectedPlace := by
  refine ⟨rfl, .inl ?_⟩
  refine ⟨chosenMiddle.behind.take 1, chosenMiddle.behind.drop 2, ?_, ?_, ?_⟩
  all_goals decide +kernel

end Hyperion.Hal.Dtb
