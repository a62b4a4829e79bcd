import Hyperion.Hal.DtbTokens

/-!
# The walk over a device tree is a fold over the tree

A device tree is a tree of named nodes with properties.  `Node.visit` says what the
kernel is meant to make of it: each node down to depth seven is reported once,
after its children, with its own name and the meaning of its own properties, the
`reg` property read with the cell counts of its parent; what lies deeper is
ignored.  Two things are threaded through the tree in document order, the
`stdout-path` and whether the walk is inside `/chosen`.

The encoding of a tree is `Node.tokens`, with no-op tokens anywhere in between.
`runsAs_tokens` shows by induction on the tree that the token machine does on a node
what `Node.visit` says, for any slots of the per-depth arrays above the node's own
depth: stale values there are never read.
-/

namespace Hyperion.Hal.Dtb

open Hyperion.Lib

/-! ## Trees -/

/-- A node with its properties and its children. -/
inductive Node where
  | mk (name : String) (props : List (String × List UInt8)) (children : List Node)

mutual

/-- The tokens of a node. -/
def Node.tokens : Node → List Token
  | .mk name props children =>
    .beginNode name ::
      (props.map (fun p => Token.prop p.1 p.2) ++ (Node.tokensAll children ++ [.endNode]))

def Node.tokensAll : List Node → List Token
  | [] => []
  | node :: nodes => node.tokens ++ Node.tokensAll nodes

end

/-! ## What is meant -/

/-- What is threaded through the nodes in document order. -/
structure Ambient where
  stdoutPath : String
  inChosen : Bool
  deriving DecidableEq, Repr

/-- A node's own data: its name, and its properties in order. -/
def ownFrame (parent : Frame) (name : String) (props : List (String × List UInt8)) : Frame :=
  props.foldl (fun frame p => frame.withProp parent p.1 p.2) (parent.child name)

/-- The ambient data inside a node, behind its properties. -/
def Ambient.enter (ambient : Ambient) (name : String) (props : List (String × List UInt8)) :
    Ambient :=
  let inChosen := ambient.inChosen || name == "chosen"
  { stdoutPath :=
      props.foldl (fun path p => stdoutAfter inChosen path p.1 p.2) ambient.stdoutPath
    inChosen }

/-- The ambient data behind a node. -/
def Ambient.leave (ambient : Ambient) (name : String) : Ambient :=
  { ambient with inChosen := if name = "chosen" then false else ambient.inChosen }

mutual

/-- The calls for a node at `depth`, children first, and the ambient data behind it. -/
def Node.visit (depth : ℕ) (parent : Frame) (ambient : Ambient) : Node → List NodeCall × Ambient
  | .mk name props children =>
    if maxDepth ≤ depth then ([], ambient)
    else
      let own := ownFrame parent name props
      let below := Node.visitAll (depth + 1) own (ambient.enter name props) children
      (below.1 ++ [own.call below.2.stdoutPath below.2.inChosen], below.2.leave name)

def Node.visitAll (depth : ℕ) (parent : Frame) (ambient : Ambient) :
    List Node → List NodeCall × Ambient
  | [] => ([], ambient)
  | node :: nodes =>
    let first := node.visit depth parent ambient
    let rest := Node.visitAll depth parent first.2 nodes
    (first.1 ++ rest.1, rest.2)

end

mutual

/-- The names of the nodes from `depth` down to depth seven, in post-order. -/
def Node.postorder (depth : ℕ) : Node → List String
  | .mk name _ children =>
    if maxDepth ≤ depth then [] else Node.postorderAll (depth + 1) children ++ [name]

def Node.postorderAll (depth : ℕ) : List Node → List String
  | [] => []
  | node :: nodes => node.postorder depth ++ Node.postorderAll depth nodes

end

/-- The cell counts in force above the root. -/
def aboveRoot : Frame := { addressCells := 2, sizeCells := 1 }

/-- All calls of `act_on_node` for a tree. -/
def Node.calls (root : Node) : List NodeCall := (root.visit 1 aboveRoot ⟨"", false⟩).1

/-- Induction on a tree, with the claim for all children of a node. -/
theorem Node.induction {P : Node → Prop}
    (hnode : ∀ name props children, (∀ child ∈ children, P child) → P (.mk name props children))
    (node : Node) : P node :=
  @Node.rec P (fun nodes => ∀ child ∈ nodes, P child) hnode (by simp)
    (fun first rest hfirst hrest => by simpa using ⟨hfirst, hrest⟩) node

variable {ι : Type}

/-! ## Skipped subtrees -/

section Skipping

variable (act : ι → NodeCall → ι)

theorem run_props_skipping (props : List (String × List UInt8)) (rest : List Token) {nesting : ℕ}
    (hnesting : nesting ≠ 0) (s : Walk ι) :
    run act (props.map (fun p => Token.prop p.1 p.2) ++ rest) nesting s =
      run act rest nesting s := by
  induction props with
  | nil => rfl
  | cons p props ih =>
    rw [List.map_cons, List.cons_append, run_skipping act _ _ hnesting]
    exact ih

/-- Skipping passes over these tokens without any effect. -/
def SkippedOver (tokens : List Token) : Prop :=
  ∀ (rest : List Token) (nesting : ℕ), nesting ≠ 0 → ∀ s : Walk ι,
    run act (tokens ++ rest) nesting s = run act rest nesting s

theorem skippedOver_tokensAll {nodes : List Node}
    (hnodes : ∀ node ∈ nodes, SkippedOver act node.tokens) :
    SkippedOver act (Node.tokensAll nodes) := by
  induction nodes with
  | nil => exact fun _ _ _ _ => rfl
  | cons node nodes ih =>
    intro rest nesting hnesting s
    rw [Node.tokensAll, List.append_assoc, hnodes node (by simp) _ nesting hnesting]
    exact ih (fun n hn => hnodes n (by simp [hn])) rest nesting hnesting s

/-- From inside a skipped node, skipping passes its end. -/
theorem run_body_skipping (props : List (String × List UInt8)) {children : List Node}
    (hchildren : ∀ child ∈ children, SkippedOver act child.tokens) (rest : List Token)
    (nesting : ℕ) (s : Walk ι) :
    run act (props.map (fun p => Token.prop p.1 p.2) ++ (Node.tokensAll children ++ [.endNode]) ++
      rest) (nesting + 1) s = run act rest nesting s := by
  rw [List.append_assoc, run_props_skipping act props _ (Nat.succ_ne_zero _), List.append_assoc,
    skippedOver_tokensAll act hchildren _ _ (Nat.succ_ne_zero _), List.singleton_append,
    run_skipping act _ _ (Nat.succ_ne_zero _)]
  rfl

theorem skippedOver_tokens (node : Node) : SkippedOver act node.tokens := by
  induction node using Node.induction with
  | hnode name props children ih =>
    intro rest nesting hnesting s
    rw [Node.tokens, List.cons_append, run_skipping act _ _ hnesting]
    exact run_body_skipping act props ih rest nesting s

end Skipping

/-! ## The properties of a node -/

/-- The ambient data of a walk. -/
def Walk.ambient (s : Walk ι) : Ambient := ⟨s.stdoutPath, s.inChosen⟩

/-- The walk after the properties of the current node. -/
def Walk.proppedAll (s : Walk ι) (props : List (String × List UInt8)) : Walk ι :=
  props.foldl (fun s p => s.propped p.1 p.2) s

theorem run_props (act : ι → NodeCall → ι) (props : List (String × List UInt8))
    (rest : List Token) (s : Walk ι) :
    run act (props.map (fun p => Token.prop p.1 p.2) ++ rest) 0 s =
      run act rest 0 (s.proppedAll props) := by
  induction props generalizing s with
  | nil => rfl
  | cons p props ih => exact ih (s.propped p.1 p.2)

theorem frameAt_propped (s : Walk ι) (name : String) (value : List UInt8) {i : ℕ}
    (hi : i ≠ s.depth) : frameAt (s.propped name value).frames i = frameAt s.frames i :=
  frameAt_set_of_ne _ hi

theorem current_propped {s : Walk ι} (name : String) (value : List UInt8)
    (hdepth : s.depth < maxDepth) :
    (s.propped name value).current =
      s.current.withProp (frameAt s.frames (s.depth - 1)) name value :=
  frameAt_set_self _ hdepth

/-- What a node's properties do to the walk. -/
structure Propped (s next : Walk ι) (props : List (String × List UInt8)) : Prop where
  depth_eq : next.depth = s.depth
  frames_eq : ∀ i, i ≠ s.depth → frameAt next.frames i = frameAt s.frames i
  current_eq : next.current = props.foldl
    (fun frame p => frame.withProp (frameAt s.frames (s.depth - 1)) p.1 p.2) s.current
  stdout_eq : next.stdoutPath =
    props.foldl (fun path p => stdoutAfter s.inChosen path p.1 p.2) s.stdoutPath
  chosen_eq : next.inChosen = s.inChosen
  info_eq : next.info = s.info

theorem propped_proppedAll (props : List (String × List UInt8)) {s : Walk ι} (hpos : 1 ≤ s.depth)
    (hdepth : s.depth < maxDepth) : Propped s (s.proppedAll props) props := by
  induction props generalizing s with
  | nil => exact ⟨rfl, fun _ _ => rfl, rfl, rfl, rfl, rfl⟩
  | cons p props ih =>
    have hparent : frameAt (s.propped p.1 p.2).frames (s.depth - 1) =
        frameAt s.frames (s.depth - 1) := frameAt_propped s p.1 p.2 (by omega)
    have hstdout : (s.propped p.1 p.2).stdoutPath =
        stdoutAfter s.inChosen s.stdoutPath p.1 p.2 := by
      simp [Walk.propped, hpos]
    obtain ⟨hd, hf, hc, hs, hin, hinfo⟩ := ih (s := s.propped p.1 p.2) hpos hdepth
    refine ⟨hd, ?_, ?_, ?_, hin, hinfo⟩
    · intro i hi
      exact (hf i hi).trans (frameAt_propped s p.1 p.2 hi)
    · rw [List.foldl_cons, ← current_propped p.1 p.2 hdepth, ← hparent]
      exact hc
    · rw [List.foldl_cons, ← hstdout]
      exact hs

/-! ## Nodes -/

/-- The walk has passed the nodes of a visit: the calls were made, and the arrays are
unchanged at the depths that are still open. -/
structure Visited (act : ι → NodeCall → ι) (s next : Walk ι) (visit : List NodeCall × Ambient) :
    Prop where
  depth_eq : next.depth = s.depth
  frames_eq : ∀ i ≤ s.depth, frameAt next.frames i = frameAt s.frames i
  ambient_eq : next.ambient = visit.2
  info_eq : next.info = visit.1.foldl act s.info

/-- The machine does on these tokens what the visit says. -/
def RunsAs (act : ι → NodeCall → ι) (tokens : List Token)
    (visit : ℕ → Frame → Ambient → List NodeCall × Ambient) : Prop :=
  ∀ (rest : List Token) (s : Walk ι), s.depth < maxDepth →
    ∃ next, run act (tokens ++ rest) 0 s = run act rest 0 next ∧
      Visited act s next (visit (s.depth + 1) s.current s.ambient)

theorem runsAs_tokensAll (act : ι → NodeCall → ι) {nodes : List Node}
    (hnodes : ∀ node ∈ nodes, RunsAs act node.tokens fun d p a => node.visit d p a) :
    RunsAs act (Node.tokensAll nodes) fun d p a => Node.visitAll d p a nodes := by
  induction nodes with
  | nil => exact fun rest s _ => ⟨s, rfl, rfl, fun _ _ => rfl, rfl, rfl⟩
  | cons node nodes ih =>
    intro rest s hdepth
    obtain ⟨mid, hrun₁, hmid⟩ := hnodes node (by simp) (Node.tokensAll nodes ++ rest) s hdepth
    obtain ⟨next, hrun₂, hnext⟩ := ih (fun n hn => hnodes n (by simp [hn])) rest mid
      (by rw [hmid.depth_eq]; exact hdepth)
    have hcurrent : mid.current = s.current := by
      rw [Walk.current, Walk.current, hmid.depth_eq]
      exact hmid.frames_eq s.depth (le_refl _)
    rw [hmid.depth_eq, hcurrent, hmid.ambient_eq] at hnext
    refine ⟨next, ?_, hnext.depth_eq.trans hmid.depth_eq, ?_, hnext.ambient_eq, ?_⟩
    · rw [Node.tokensAll, List.append_assoc, hrun₁, hrun₂]
    · intro i hi
      rw [hnext.frames_eq i (by rw [hmid.depth_eq]; exact hi), hmid.frames_eq i hi]
    · simp only [hnext.info_eq, hmid.info_eq, Node.visitAll, List.foldl_append]

/-- Properties do not rename a node. -/
theorem name_withProp (frame parent : Frame) (pname : String) (value : List UInt8) :
    (frame.withProp parent pname value).name = frame.name :=
  Frame.withProp_rule (P := fun next => next.name = frame.name) rfl (fun _ _ => rfl)
    (fun _ _ => rfl) (fun _ _ => rfl) (fun _ _ => rfl) (fun _ _ => rfl)
    (fun _ _ => rfl) parent value

theorem name_ownFrame (parent : Frame) (name : String) (props : List (String × List UInt8)) :
    (ownFrame parent name props).name = name := by
  have hkeep : ∀ frame : Frame,
      (props.foldl (fun frame p => frame.withProp parent p.1 p.2) frame).name = frame.name := by
    induction props with
    | nil => exact fun _ => rfl
    | cons p props ih => exact fun frame => (ih _).trans (name_withProp frame parent p.1 p.2)
  exact hkeep (parent.child name)

/-- Opening a node and reading its properties. -/
theorem opened_proppedAll (name : String) (props : List (String × List UInt8)) {s : Walk ι}
    (hshallow : s.depth + 1 < maxDepth) :
    ((s.opened name).proppedAll props).depth = s.depth + 1 ∧
      (∀ i ≤ s.depth, frameAt ((s.opened name).proppedAll props).frames i = frameAt s.frames i) ∧
      ((s.opened name).proppedAll props).current = ownFrame s.current name props ∧
      ((s.opened name).proppedAll props).ambient = s.ambient.enter name props ∧
      ((s.opened name).proppedAll props).info = s.info := by
  have hprops := propped_proppedAll props (s := s.opened name) (Nat.succ_pos _) hshallow
  have hframes : ∀ i ≤ s.depth, frameAt (s.opened name).frames i = frameAt s.frames i :=
    fun i hi => frameAt_set_of_ne _ (by omega)
  have hparent : frameAt (s.opened name).frames ((s.opened name).depth - 1) = s.current :=
    hframes s.depth (le_refl _)
  have hcurrent : (s.opened name).current = s.current.child name := frameAt_set_self _ hshallow
  refine ⟨hprops.depth_eq, ?_, ?_, ?_, hprops.info_eq⟩
  · intro i hi
    have hne : i ≠ (s.opened name).depth := Nat.ne_of_lt (Nat.lt_succ_of_le hi)
    rw [hprops.frames_eq i hne, hframes i hi]
  · rw [hprops.current_eq, hparent, hcurrent]
    rfl
  · rw [Walk.ambient, hprops.stdout_eq, hprops.chosen_eq]
    rfl

theorem runsAs_tokens (act : ι → NodeCall → ι) (node : Node) :
    RunsAs act node.tokens fun d p a => node.visit d p a := by
  induction node using Node.induction with
  | hnode name props children ih =>
    intro rest s hdepth
    by_cases hdeep : maxDepth ≤ s.depth + 1
    · refine ⟨s, ?_, rfl, fun _ _ => rfl, ?_, ?_⟩
      · have hbegin : ∀ tokens, run act (.beginNode name :: tokens) 0 s = run act tokens 1 s := by
          intro tokens
          simp [run, hdeep]
        rw [Node.tokens, List.cons_append, hbegin]
        exact run_body_skipping act props (fun child _ => skippedOver_tokens act child) rest 0 s
      · simp [Node.visit, hdeep]
      · simp [Node.visit, hdeep]
    · -- the node opens, its properties are read, its children visited, and it closes
      have hshallow : s.depth + 1 < maxDepth := Nat.not_le.mp hdeep
      obtain ⟨hdepth₁, hframes₁, hcurrent₁, hambient₁, hinfo₁⟩ :=
        opened_proppedAll name props hshallow
      obtain ⟨below, hrun, hbelow⟩ := runsAs_tokensAll act ih (.endNode :: rest)
        ((s.opened name).proppedAll props) (by rw [hdepth₁]; exact hshallow)
      have hdepth₂ : below.depth = s.depth + 1 := hbelow.depth_eq.trans hdepth₁
      have hcurrent₂ : below.current = ownFrame s.current name props := by
        rw [← hcurrent₁, Walk.current, Walk.current, hbelow.depth_eq]
        exact hbelow.frames_eq _ (le_refl _)
      rw [hdepth₁, hcurrent₁, hambient₁] at hbelow
      obtain ⟨_, hframes₂, hambient₂, hinfo₂⟩ := hbelow
      have hstdout₂ := congrArg Ambient.stdoutPath hambient₂
      have hchosen₂ := congrArg Ambient.inChosen hambient₂
      simp only [Walk.ambient] at hstdout₂ hchosen₂
      refine ⟨below.closed act, ?_, ?_, ?_, ?_, ?_⟩
      · have hbegin : ∀ tokens, run act (.beginNode name :: tokens) 0 s =
            run act tokens 0 (s.opened name) := by
          intro tokens
          simp [run, hdeep]
        rw [Node.tokens, List.cons_append, hbegin, List.append_assoc, run_props, List.append_assoc,
          List.singleton_append, hrun]
        simp [run, hdepth₂]
      · show below.depth - 1 = s.depth
        rw [hdepth₂, Nat.add_sub_cancel]
      · intro i hi
        have hle : i ≤ ((s.opened name).proppedAll props).depth := by omega
        exact (hframes₂ i hle).trans (hframes₁ i hi)
      · simp only [Node.visit, if_neg hdeep, Walk.ambient, Walk.closed, Ambient.leave, hcurrent₂,
          name_ownFrame, hstdout₂, hchosen₂]
      · simp only [Node.visit, if_neg hdeep, Walk.closed, hcurrent₂, hstdout₂, hchosen₂, hinfo₂,
          hinfo₁, Walk.ambient, List.foldl_append, List.foldl_cons, List.foldl_nil]

/-! ## The whole tree -/

/-- Each node down to depth seven is visited once, in post-order. -/
theorem names_visit (node : Node) : ∀ (depth : ℕ) (parent : Frame) (ambient : Ambient),
    (node.visit depth parent ambient).1.map NodeCall.name = node.postorder depth := by
  induction node using Node.induction with
  | hnode name props children ih =>
    have hchildren : ∀ (depth : ℕ) (parent : Frame) (ambient : Ambient),
        (Node.visitAll depth parent ambient children).1.map NodeCall.name =
          Node.postorderAll depth children := by
      induction children with
      | nil => exact fun _ _ _ => rfl
      | cons child children ihc =>
        intro depth parent ambient
        rw [Node.visitAll, List.map_append, ih child (by simp), Node.postorderAll,
          ihc fun c hc => ih c (by simp [hc])]
    intro depth parent ambient
    by_cases hdeep : maxDepth ≤ depth
    · simp [Node.visit, Node.postorder, hdeep]
    · simp only [Node.visit, Node.postorder, if_neg hdeep, List.map_append, hchildren]
      simp [Frame.call, name_ownFrame]

/-- The walk over the tokens of a tree makes the calls for the tree. -/
theorem walkWith_eq_fold {root : Node} {tokens : List Token} {off : String → UInt32}
    {strings : List UInt8} (htokens : tokens.filter (· ≠ .nop) = root.tokens ++ [.finish])
    (hvalid : ∀ token ∈ root.tokens, token.Valid off strings)
    (hsize : (encodeAll off tokens).length < 2 ^ 32) (act : ι → NodeCall → ι) (info : ι) :
    walkWith act (encodeAll off tokens) strings info = .ok (root.calls.foldl act info) := by
  have hall : ∀ token ∈ tokens, token.Valid off strings := by
    intro token htoken
    by_cases hnop : token = .nop
    · rw [hnop]
      trivial
    · have hmem : token ∈ root.tokens ++ [.finish] := by
        rw [← htokens]
        simpa using ⟨htoken, hnop⟩
      rcases List.mem_append.mp hmem with hroot | hfinish
      · exact hvalid token hroot
      · rw [List.mem_singleton.mp hfinish]
        trivial
  let start : Walk ι :=
    { cursor := 0, depth := 0, frames := startFrames, stdoutPath := "", inChosen := false, info }
  obtain ⟨next, hrun, hvisited⟩ := runsAs_tokens act root [.finish] start (Nat.succ_pos 7)
  have habove : start.current = aboveRoot := frameAt_set_self _ (Nat.succ_pos 7)
  rw [habove] at hvisited
  rw [walkWith_encodeAll act hall hsize, ← run_filter_nop, htokens, hrun]
  exact congrArg Except.ok hvisited.info_eq

/-- **The walk over an encoded device tree is a fold over the tree.**  On any
encoding of a tree as tokens, with no-op tokens inserted anywhere, the walk makes
exactly the calls of `Node.calls`, whatever is done with them: one for each node
down to depth seven, in post-order, with the node's own name and the meaning of
its own properties. -/
theorem walk_eq_fold (root : Node) (tokens : List Token) (off : String → UInt32)
    (strings : List UInt8)
    (htokens : tokens.filter (· ≠ .nop) = root.tokens ++ [.finish])
    (hvalid : ∀ token ∈ root.tokens, token.Valid off strings)
    (hsize : (encodeAll off tokens).length < 2 ^ 32) :
    (∀ (ι : Type) (act : ι → NodeCall → ι) (info : ι),
      walkWith act (encodeAll off tokens) strings info = .ok (root.calls.foldl act info)) ∧
    (∀ info, walk (encodeAll off tokens) strings info = .ok (root.calls.foldl actOnNode info)) ∧
    root.calls.map NodeCall.name = root.postorder 1 := by
  refine ⟨fun ι act info => walkWith_eq_fold htokens hvalid hsize act info, fun info => ?_,
    names_visit root 1 _ _⟩
  exact walkWith_eq_fold htokens hvalid hsize actOnNode info

/-- A tree with one memory node, whose addresses and sizes are one cell wide. -/
def memoryTree : Node :=
  .mk "" [("#address-cells", [0, 0, 0, 1])]
    [.mk "memory@0" [("reg", [64, 0, 0, 0, 0, 16, 0, 0])] []]

def memoryStrings : List UInt8 := utf8 "#address-cells" ++ 0 :: (utf8 "reg" ++ [0])

/-- The places of the two property names in `memoryStrings`. -/
def memoryOff (name : String) : UInt32 := if name = "reg" then 15 else 0

theorem walk_eq_fold_memoryTree :
    let tokens : List Token :=
      [.beginNode "", .prop "#address-cells" [0, 0, 0, 1], .nop, .beginNode "memory@0",
        .prop "reg" [64, 0, 0, 0, 0, 16, 0, 0], .endNode, .endNode, .finish]
    walkWith (fun log call => log ++ [call]) (encodeAll memoryOff tokens) memoryStrings [] =
      .ok [⟨"memory@0", "", some (0x40000000, 0x100000), 0, none, "", false⟩,
        ⟨"", "", none, 0, none, "", false⟩] := by
  intro tokens
  have hvalid : ∀ token ∈ memoryTree.tokens, token.Valid memoryOff memoryStrings := by
    intro token htoken
    simp only [memoryTree, Node.tokens, Node.tokensAll, List.map_cons, List.map_nil,
      List.nil_append,
      List.cons_append, List.append_nil, List.mem_cons, List.not_mem_nil, or_false] at htoken
    rcases htoken with rfl | rfl | rfl | rfl | rfl | rfl
    · exact List.not_mem_nil
    · exact ⟨by decide, by decide +kernel, [], utf8 "reg" ++ [0], rfl, rfl⟩
    · show (0 : UInt8) ∉ utf8 "memory@0"
      decide +kernel
    · exact ⟨by decide, by decide +kernel, utf8 "#address-cells" ++ [0], [], by decide +kernel,
        rfl⟩
    · trivial
    · trivial
  obtain ⟨hfold, _⟩ := walk_eq_fold memoryTree tokens memoryOff memoryStrings rfl
    hvalid (by decide +kernel)
  rw [hfold]
  decide +kernel

end Hyperion.Hal.Dtb
