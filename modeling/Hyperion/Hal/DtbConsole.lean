import Hyperion.Hal.DtbMemory

/-!
# Which UART becomes the console

A UART of a tree is a node with a supported `compatible` string and a `reg` that can
be read; `Node.uarts` has those of a tree in the order the nodes close.  The parser
considers a UART when its node closes, if the node is not too deep and its name does
not begin with `memory`, and with what it has seen so far:

* while it has no `stdout-path`, a UART becomes the console if the console is still
  the fallback's, which is a PL011 at `0x09000000`.  A UART of the tree that is one
  too, a `Lookalike`, is taken for the fallback's and replaced by the next one;
* from the `stdout-path` on, every UART whose name resembles the last component of
  the path becomes the console.  The last of them wins, and a UART that closed before
  is not looked at again.
-/

namespace Hyperion.Hal.Dtb

open Hyperion.Lib

/-! ## Two folds -/

section Folds

variable {α β : Type} (start : α)

/-- A place-holder is replaced until something else is there. -/
theorem foldl_replace_iff {p : α → Prop} [DecidablePred p] (list : List α) (hstart : p start)
    (x : α) : list.foldl (fun current next => if p current then next else current) start = x ↔
      (¬p x ∧ list.find? (¬p ·) = some x) ∨
        (p x ∧ (∀ y ∈ list, p y) ∧ list.getLast?.getD start = x) := by
  have hkeep : ∀ (list : List α) {kept : α}, ¬p kept →
      list.foldl (fun current next => if p current then next else current) kept = kept := by
    intro list
    induction list with
    | nil => exact fun _ => rfl
    | cons first rest ih =>
      intro kept hkept
      rw [List.foldl_cons, if_neg hkept, ih hkept]
  induction list generalizing start with
  | nil =>
    constructor
    · rintro rfl
      exact .inr ⟨hstart, by simp, rfl⟩
    · rintro (⟨_, hnone⟩ | ⟨_, _, hlast⟩)
      · cases hnone
      · exact hlast
  | cons first rest ih =>
    rw [List.foldl_cons, if_pos hstart]
    by_cases hfirst : p first
    · -- one more place-holder
      refine (ih first hfirst).trans ?_
      rw [List.find?_cons_of_neg (by simpa using hfirst), List.getLast?_cons, Option.getD_some,
        List.forall_mem_cons]
      simp only [hfirst, true_and]
    · rw [hkeep rest hfirst, List.find?_cons_of_pos (by simpa using hfirst)]
      constructor
      · rintro rfl
        exact .inl ⟨hfirst, rfl⟩
      · rintro (⟨_, hfound⟩ | ⟨_, hall, _⟩)
        · exact Option.some.inj hfound
        · exact absurd (hall first List.mem_cons_self) hfirst

/-- The last that is picked wins. -/
theorem foldl_pick (pick : β → Option α) (list : List β) :
    list.foldl (fun current next => (pick next).getD current) start =
      (list.filterMap pick).getLast?.getD start := by
  induction list generalizing start with
  | nil => rfl
  | cons first rest ih =>
    rw [List.foldl_cons, ih, List.filterMap_cons]
    cases pick first with
    | none => rfl
    | some x => rw [List.getLast?_cons, Option.getD_some, Option.getD_some]

end Folds

/-! ## The UARTs of a tree -/

/-- The console that a node with these properties is, if it is a UART. -/
def uartOf (compatible : String) (reg : Option (UInt64 × UInt64)) (clockHz : UInt32) :
    Option ConsoleSpec :=
  match uartKindFor compatible, reg with
  | some kind, some (base, size) => some { kind, regs := ⟨base, size⟩, clockHz }
  | _, _ => none

def Frame.uart? (frame : Frame) : Option ConsoleSpec :=
  uartOf frame.compatible frame.reg frame.clock

mutual

/-- The data of a node and of all nodes below it, in the order they close. -/
def Node.framesFrom (parent : Frame) : Node → List Frame
  | .mk name props children =>
    Node.framesAll (ownFrame parent name props) children ++ [ownFrame parent name props]

def Node.framesAll (parent : Frame) : List Node → List Frame
  | [] => []
  | node :: nodes => node.framesFrom parent ++ Node.framesAll parent nodes

end

def Node.frames (root : Node) : List Frame := root.framesFrom aboveRoot

/-- The UARTs of a tree in the order they close. -/
def Node.uarts (root : Node) : List ConsoleSpec := root.frames.filterMap Frame.uart?

/-! ## The UARTs the parser considers -/

/-- The UART a node is considered as when it closes. -/
def NodeCall.uart? (call : NodeCall) : Option ConsoleSpec :=
  if startsWith call.name "memory" then none else uartOf call.compatible call.reg call.clockHz

/-- A console that the parser takes for the fallback's. -/
def Lookalike (spec : ConsoleSpec) : Prop := spec.regs.base = 0x09000000 ∧ spec.kind = .pl011

instance (spec : ConsoleSpec) : Decidable (Lookalike spec) := inferInstanceAs (Decidable (_ ∧ _))

def fallbackConsole : ConsoleSpec :=
  { kind := .pl011, regs := ⟨0x09000000, 0x1000⟩, clockHz := 24000000 }

/-- The console behind a node that closes. -/
def consoleAfter (console : ConsoleSpec) (call : NodeCall) : ConsoleSpec :=
  match call.uart? with
  | none => console
  | some spec =>
    if call.stdoutPath ≠ "" then if pathMatchesNode call.stdoutPath call.name then spec else console
    else if Lookalike console then spec
    else console

theorem uartKindFor_of_matches {compatible : String} {wanted : List String}
    (hmatches : compatibleMatches compatible wanted = true)
    (hother : ∀ w ∈ wanted, uartKindFor w = none) : uartKindFor compatible = none := by
  obtain ⟨w, hw, heq⟩ := List.any_eq_true.mp hmatches
  rw [← eq_of_beq heq]
  exact hother w hw

theorem uartOf_of_none {compatible : String} {reg : Option (UInt64 × UInt64)} {clockHz : UInt32}
    (hkind : uartKindFor compatible = none) : uartOf compatible reg clockHz = none := by
  unfold uartOf
  rw [hkind]

/-- Only a UART changes the console. -/
theorem console_actOnNode {info : BootInfo} (haddr : info.fwTableAddr ≠ 0) (call : NodeCall) :
    (actOnNode info call).console = consoleAfter info.console call := by
  obtain ⟨name, compatible, reg, clockHz, fb, stdoutPath, inChosen⟩ := call
  delta actOnNode
  simp only [consoleAfter, NodeCall.uart?]
  by_cases hmemory : startsWith name "memory" = true
  · rw [if_pos hmemory, if_pos hmemory]
    cases reg <;> rfl
  rw [if_neg hmemory, if_neg hmemory]
  -- the controllers and the timer are no UARTs
  by_cases hv3 : compatibleMatches compatible ["arm,gic-v3"] = true
  · rw [if_pos hv3, uartOf_of_none (uartKindFor_of_matches hv3 (by decide +kernel))]
    cases reg <;> rfl
  rw [if_neg hv3]
  by_cases hv2 : compatibleMatches compatible
      ["arm,gic-400", "arm,cortex-a15-gic", "arm,cortex-a9-gic", "arm,gic"] = true
  · rw [if_pos hv2, uartOf_of_none (uartKindFor_of_matches hv2 (by decide +kernel))]
    cases reg <;> rfl
  rw [if_neg hv2]
  by_cases htimer : compatibleMatches compatible ["arm,armv8-timer", "arm,armv7-timer"] = true ∧
      clockHz ≠ 0
  · rw [if_pos htimer, uartOf_of_none (uartKindFor_of_matches htimer.1 (by decide +kernel))]
  rw [if_neg htimer]
  unfold uartOf
  cases uartKindFor compatible with
  | none =>
    dsimp only
    repeat' split
    all_goals rfl
  | some kind =>
    cases reg with
    | none => rfl
    | some reg =>
      have hsame : (info.fwTableAddr ≠ 0 ∧ info.console.regs.base = 0x09000000 ∧
          info.console.kind = .pl011) ↔ Lookalike info.console :=
        ⟨fun h => h.2, fun h => ⟨haddr, h⟩⟩
      dsimp only
      rw [if_congr hsame rfl rfl]
      by_cases hpath : stdoutPath ≠ ""
      · rw [if_pos hpath, if_pos hpath]
        split <;> rfl
      · rw [if_neg hpath, if_neg hpath]
        split <;> rfl

theorem console_foldl (calls : List NodeCall) {info : BootInfo} (haddr : info.fwTableAddr ≠ 0) :
    (calls.foldl actOnNode info).console = calls.foldl consoleAfter info.console := by
  induction calls generalizing info with
  | nil => rfl
  | cons call calls ih =>
    have hnext : (actOnNode info call).fwTableAddr ≠ 0 := by
      rw [fwTableAddr_actOnNode]
      exact haddr
    rw [List.foldl_cons, List.foldl_cons, ih hnext, console_actOnNode haddr]

theorem console_of_tree {dtbAddr : UInt64} {memory : List UInt8} {root : Node}
    (haddr : dtbAddr ≠ 0) (htree : HoldsTree memory root) :
    ∃ info, parseOrFallback dtbAddr memory = .ok info ∧
      info.console = root.calls.foldl consoleAfter fallbackConsole :=
  ⟨_, parseOrFallback_of_tree haddr htree, console_foldl _ haddr⟩

/-- The UARTs among the nodes that close, as far as they are considered. -/
def considered (calls : List NodeCall) : List ConsoleSpec := calls.filterMap NodeCall.uart?

/-- The console that some UARTs leave without a `stdout-path`: the first that does not
look like the fallback's, or, if all do, the last. -/
def Settles (uarts : List ConsoleSpec) (spec : ConsoleSpec) : Prop :=
  (¬Lookalike spec ∧ uarts.find? (¬Lookalike ·) = some spec) ∨
    (Lookalike spec ∧ (∀ uart ∈ uarts, Lookalike uart) ∧
      uarts.getLast?.getD fallbackConsole = spec)

/-- Without a `stdout-path`, a UART replaces what looks like the fallback's. -/
theorem foldl_consoleAfter_unset {calls : List NodeCall}
    (hpath : ∀ call ∈ calls, call.stdoutPath = "") (console : ConsoleSpec) :
    calls.foldl consoleAfter console =
      (considered calls).foldl (fun current next => if Lookalike current then next else current)
        console := by
  induction calls generalizing console with
  | nil => rfl
  | cons call calls ih =>
    obtain ⟨hcall, hcalls⟩ := List.forall_mem_cons.mp hpath
    rw [List.foldl_cons, ih hcalls, considered, considered, List.filterMap_cons, consoleAfter]
    cases call.uart? with
    | none => rfl
    | some spec =>
      dsimp only
      rw [if_neg (not_not.mpr hcall), List.foldl_cons]

theorem foldl_consoleAfter_settles {calls : List NodeCall}
    (hpath : ∀ call ∈ calls, call.stdoutPath = "") (spec : ConsoleSpec) :
    calls.foldl consoleAfter fallbackConsole = spec ↔ Settles (considered calls) spec := by
  rw [foldl_consoleAfter_unset hpath]
  exact foldl_replace_iff fallbackConsole _ (by decide) spec

/-! ## Trees without a `stdout-path` -/

mutual

/-- No node that is named `chosen`, or is inside one, has a `stdout-path`. -/
def Node.LacksStdout (inside : Bool) : Node → Prop
  | .mk name props children =>
    ((inside || name == "chosen") = true → ∀ p ∈ props, p.1 ≠ "stdout-path") ∧
      Node.LackStdout (inside || name == "chosen") children

def Node.LackStdout (inside : Bool) : List Node → Prop
  | [] => True
  | node :: nodes => node.LacksStdout inside ∧ Node.LackStdout inside nodes

end

/-- Calls that leave a `stdout-path` as it is, and what is threaded behind them. -/
structure KeepsPath (inside : Bool) (path : String) (visit : List NodeCall × Ambient) : Prop where
  calls : ∀ call ∈ visit.1, call.stdoutPath = path
  path : visit.2.stdoutPath = path
  chosen : visit.2.inChosen = true → inside = true

theorem stdoutPath_fold {props : List (String × List UInt8)} {inChosen : Bool}
    (hprops : inChosen = true → ∀ p ∈ props, p.1 ≠ "stdout-path") (path : String) :
    props.foldl (fun path p => stdoutAfter inChosen path p.1 p.2) path = path := by
  induction props generalizing path with
  | nil => rfl
  | cons p props ih =>
    have hkept : stdoutAfter inChosen path p.1 p.2 = path := by
      rw [stdoutAfter, if_neg]
      rintro ⟨hname, hin⟩
      exact hprops hin p List.mem_cons_self hname
    rw [List.foldl_cons, hkept, ih fun hin q hq => hprops hin q (List.mem_cons_of_mem _ hq)]

theorem keepsPath_visitAll {nodes : List Node}
    (hnodes : ∀ node ∈ nodes, ∀ inside depth parent (ambient : Ambient), node.LacksStdout inside →
      (ambient.inChosen = true → inside = true) →
      KeepsPath inside ambient.stdoutPath (node.visit depth parent ambient))
    {inside : Bool} (depth : ℕ) (parent : Frame) (ambient : Ambient)
    (hlack : Node.LackStdout inside nodes) (hin : ambient.inChosen = true → inside = true) :
    KeepsPath inside ambient.stdoutPath (Node.visitAll depth parent ambient nodes) := by
  induction nodes generalizing ambient with
  | nil => exact ⟨by simp [Node.visitAll], rfl, hin⟩
  | cons node nodes ih =>
    have hfirst := hnodes node List.mem_cons_self inside depth parent ambient hlack.1 hin
    have hrest := ih (fun n hn => hnodes n (List.mem_cons_of_mem _ hn)) _ hlack.2 hfirst.chosen
    rw [hfirst.path] at hrest
    refine ⟨?_, hrest.path, hrest.chosen⟩
    intro call hcall
    rcases List.mem_append.mp hcall with hcall | hcall
    · exact hfirst.calls call hcall
    · exact hrest.calls call hcall

/-- A node without a `stdout-path` changes nothing about it. -/
theorem keepsPath_visit (node : Node) : ∀ inside depth parent (ambient : Ambient),
    node.LacksStdout inside → (ambient.inChosen = true → inside = true) →
      KeepsPath inside ambient.stdoutPath (node.visit depth parent ambient) := by
  induction node using Node.induction with
  | hnode name props children ih =>
    intro inside depth parent ambient hlacks hin
    by_cases hdeep : maxDepth ≤ depth
    · simp only [Node.visit, if_pos hdeep]
      exact ⟨by simp, rfl, hin⟩
    · have henter : (ambient.inChosen || name == "chosen") = true →
          (inside || name == "chosen") = true := by
        intro h
        rcases Bool.or_eq_true_iff.mp h with h | h
        · rw [hin h, Bool.true_or]
        · rw [h, Bool.or_true]
      have hpath : (ambient.enter name props).stdoutPath = ambient.stdoutPath :=
        stdoutPath_fold (fun h => hlacks.1 (henter h)) _
      have hbelow := keepsPath_visitAll ih (depth + 1) (ownFrame parent name props)
        (ambient.enter name props) hlacks.2 henter
      rw [hpath] at hbelow
      simp only [Node.visit, if_neg hdeep]
      refine ⟨?_, hbelow.path, ?_⟩
      · intro call hcall
        rcases List.mem_append.mp hcall with hcall | hcall
        · exact hbelow.calls call hcall
        · rw [List.mem_singleton.mp hcall]
          exact hbelow.path
      · -- behind a node named `chosen` the flag is off; behind another it is as inside
        intro hout
        by_cases hname : name = "chosen"
        · simp [Ambient.leave, hname] at hout
        · rw [Ambient.leave, if_neg hname] at hout
          simpa [hname] using hbelow.chosen hout

/-! ## The console without a `stdout-path` -/

theorem frames_mem_visitAll {nodes : List Node}
    (hnodes : ∀ node ∈ nodes, ∀ depth parent ambient,
      ∀ call ∈ (node.visit depth parent ambient).1,
        ∃ frame ∈ node.framesFrom parent, ∃ path inChosen, call = frame.call path inChosen)
    (depth : ℕ) (parent : Frame) (ambient : Ambient) :
    ∀ call ∈ (Node.visitAll depth parent ambient nodes).1,
      ∃ frame ∈ Node.framesAll parent nodes, ∃ path inChosen, call = frame.call path inChosen := by
  induction nodes generalizing ambient with
  | nil => exact fun call hcall => absurd hcall List.not_mem_nil
  | cons node nodes ih =>
    intro call hcall
    rcases List.mem_append.mp hcall with hcall | hcall
    · obtain ⟨frame, hframe, heq⟩ := hnodes node List.mem_cons_self _ _ _ call hcall
      exact ⟨frame, List.mem_append_left _ hframe, heq⟩
    · obtain ⟨frame, hframe, heq⟩ :=
        ih (fun n hn => hnodes n (List.mem_cons_of_mem _ hn)) _ call hcall
      exact ⟨frame, List.mem_append_right _ hframe, heq⟩

/-- What the parser acts on are nodes of the tree. -/
theorem frames_mem_visit (node : Node) : ∀ depth parent ambient,
    ∀ call ∈ (node.visit depth parent ambient).1,
      ∃ frame ∈ node.framesFrom parent, ∃ path inChosen, call = frame.call path inChosen := by
  induction node using Node.induction with
  | hnode name props children ih =>
    intro depth parent ambient call hcall
    rw [Node.visit] at hcall
    split at hcall
    case isTrue => exact absurd hcall List.not_mem_nil
    case isFalse =>
      rcases List.mem_append.mp hcall with hcall | hcall
      · obtain ⟨frame, hframe, heq⟩ := frames_mem_visitAll ih _ _ _ call hcall
        exact ⟨frame, List.mem_append_left _ hframe, heq⟩
      · exact ⟨_, List.mem_append_right _ List.mem_cons_self, _, _, List.mem_singleton.mp hcall⟩

theorem considered_subset (root : Node) : considered root.calls ⊆ root.uarts := by
  intro spec hspec
  obtain ⟨call, hcall, huart⟩ := List.mem_filterMap.mp hspec
  obtain ⟨frame, hframe, path, inChosen, rfl⟩ := frames_mem_visit root _ _ _ call hcall
  refine List.mem_filterMap.mpr ⟨frame, hframe, ?_⟩
  rw [NodeCall.uart?] at huart
  split at huart
  case isTrue => cases huart
  case isFalse => exact huart

/-- Without a `stdout-path`, the console is the first UART to close, or the fallback's if
there is none, exactly if the first UART is what the UARTs that are considered leave. -/
theorem console_first_iff {dtbAddr : UInt64} {memory : List UInt8} {root : Node}
    (haddr : dtbAddr ≠ 0) (htree : HoldsTree memory root) (hlacks : root.LacksStdout false) :
    ∃ info, parseOrFallback dtbAddr memory = .ok info ∧
      (info.console = root.uarts.head?.getD fallbackConsole ↔
        ∀ first, root.uarts.head? = some first → Settles (considered root.calls) first) := by
  obtain ⟨info, hparse, hconsole⟩ := console_of_tree haddr htree
  refine ⟨info, hparse, ?_⟩
  have hpath : ∀ call ∈ root.calls, call.stdoutPath = "" :=
    (keepsPath_visit root false 1 aboveRoot ⟨"", false⟩ hlacks nofun).calls
  rw [hconsole]
  refine (foldl_consoleAfter_settles hpath _).trans ?_
  cases hfirst : root.uarts.head? with
  | some first => simp
  | none =>
    -- no UART at all, so none that is considered
    have hnone : considered root.calls = [] := by
      have hsub := considered_subset root
      rwa [List.head?_eq_none_iff.mp hfirst, List.subset_nil] at hsub
    rw [hnone]
    simp [Settles, Lookalike, fallbackConsole]

/-- A UART node of the boards below, with a window of 256 bytes. -/
def uartNode (name compatible : String) (base : List UInt8) : Node :=
  .mk name [("compatible", utf8 compatible ++ [0]), ("reg", [0, 0, 0, 0] ++ base ++ [0, 0, 1, 0])]
    []

theorem lacksStdout_uartNode (name compatible : String) (base : List UInt8) (inside : Bool) :
    (uartNode name compatible base).LacksStdout inside := by
  simp [uartNode, Node.LacksStdout, Node.LackStdout]

/-- A board with a PL011 at the address of the fallback's and a second UART. -/
def twoUarts : Node :=
  .mk "" []
    [uartNode "pl011@9000000" "arm,pl011" [0x09, 0, 0, 0],
      uartNode "serial@10000000" "ns16550a" [0x10, 0, 0, 0]]

/-- The same UARTs the other way round. -/
def uartsSwapped : Node :=
  .mk "" []
    [uartNode "serial@10000000" "ns16550a" [0x10, 0, 0, 0],
      uartNode "pl011@9000000" "arm,pl011" [0x09, 0, 0, 0]]

theorem holdsTree_twoUarts : HoldsTree twoUarts.blob twoUarts :=
  holdsTree_blob twoUarts (by decide +kernel)

theorem lacksStdout_twoUarts : twoUarts.LacksStdout false :=
  ⟨by simp, lacksStdout_uartNode _ _ _ _, lacksStdout_uartNode _ _ _ _, trivial⟩

theorem lacksStdout_uartsSwapped : uartsSwapped.LacksStdout false :=
  ⟨by simp, lacksStdout_uartNode _ _ _ _, lacksStdout_uartNode _ _ _ _, trivial⟩

theorem console_first_iff_uartsSwapped :
    ∃ info, parseOrFallback 0x48000000 uartsSwapped.blob = .ok info ∧
      info.console = ⟨.ns16550, ⟨0x10000000, 0x100⟩, 0⟩ := by
  have haddr : (0x48000000 : UInt64) ≠ 0 := by decide
  obtain ⟨info, hparse, hiff⟩ :=
    console_first_iff haddr
      (holdsTree_blob uartsSwapped (by decide +kernel)) lacksStdout_uartsSwapped
  have hhead : uartsSwapped.uarts.head? = some ⟨.ns16550, ⟨0x10000000, 0x100⟩, 0⟩ := by
    decide +kernel
  rw [hhead] at hiff
  refine ⟨info, hparse, hiff.mpr ?_⟩
  rintro first ⟨⟩
  exact .inl ⟨by decide, rfl⟩

/-- The first UART is taken for the fallback's, and the second becomes the console. -/
theorem first_uart_replaced :
    twoUarts.LacksStdout false ∧
      twoUarts.uarts.head? = some ⟨.pl011, ⟨0x09000000, 0x100⟩, 0⟩ ∧
      ∃ info, parseOrFallback 0x48000000 twoUarts.blob = .ok info ∧
        info.console = ⟨.ns16550, ⟨0x10000000, 0x100⟩, 0⟩ ∧
        info.console ≠ twoUarts.uarts.head?.getD fallbackConsole := by
  have haddr : (0x48000000 : UInt64) ≠ 0 := by decide
  obtain ⟨info, hparse, hconsole⟩ := console_of_tree haddr holdsTree_twoUarts
  refine ⟨lacksStdout_twoUarts, rfl, info, hparse, ?_⟩
  rw [hconsole]
  decide +kernel

end Hyperion.Hal.Dtb
