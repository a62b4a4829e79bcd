import Hyperion.Hal.DtbBlob

/-!
# The nodes of any blob

What the walk does at a token depends on the blob, the cursor and the depth, and not
on what was found before: it leaves, passes over something, or opens, changes or
closes a node (`Move`).  So the calls of `act_on_node` are the same whatever is done
with them, and on a blob of any bytes the parser is a fold over one list of calls
(`parseOrFallback_eq_foldl`), as it is on the blob of a tree.

A property of frames that opening a node and each property of it keep holds of every
call of that list (`forall_nodeCalls`).
-/

namespace Hyperion.Hal.Dtb

open Hyperion.Lib

variable {ι κ : Type} {block strings : List UInt8}

/-! ## One turn of the walk -/

/-- What a turn of the walk does, with the cursor after it. -/
inductive Move where
  | leave
  | skip (cursor : ℕ)
  | enter (cursor : ℕ) (name : String)
  | prop (cursor : ℕ) (name : String) (value : List UInt8)
  | close (cursor : ℕ)

/-- The turn that makes a move. -/
def Move.turn (act : ι → NodeCall → ι) (s : Walk ι) : Move → Turn (Walk ι) ι
  | leave => .leave s.info
  | skip cursor => .again { s with cursor }
  | enter cursor name => .again (Walk.opened { s with cursor } name)
  | prop cursor name value => .again { s.propped name value with cursor }
  | close cursor => .again (Walk.closed act { s with cursor })

/-- The move does not depend on where the token ended. -/
theorem Move.turn_cursor (act : ι → NodeCall → ι) (s : Walk ι) (cursor : ℕ) (move : Move) :
    move.turn act { s with cursor } = move.turn act s := by
  cases move <;> rfl

variable {cursor depth : ℕ}

section

variable (hblock : block.length ≤ 2 ^ 32)

include hblock

theorem exists_move_begin (hcursor : cursor ≤ block.length) (hdepth : depth < maxDepth) :
    ∃ move : Move, ∀ (ι : Type) (act : ι → NodeCall → ι) (s : Walk ι), s.cursor = cursor →
      s.depth = depth → beginTurn block s = .ok (move.turn act s) := by
  have hbound : usizeBound = 2 ^ 64 := rfl
  have hmax : maxDepth = 8 := rfl
  obtain ⟨after, hskip, _, hle⟩ := skipName_cstring hblock hcursor
  by_cases hdeep : maxDepth ≤ depth + 1
  · obtain ⟨result, hloop, _⟩ := skip_returns hblock hle
    refine ⟨result.elim .leave .skip, ?_⟩
    rintro ι act s rfl rfl
    simp only [beginTurn, cstr_eq, bind, Except.bind, hskip]
    rw [addUsize_of_lt (by omega)]
    simp only [if_pos hdeep, hloop]
    cases result with
    | none => rfl
    | some cursor => rfl
  · refine ⟨.enter after (cstring block cursor), ?_⟩
    rintro ι act s rfl rfl
    simp only [beginTurn, cstr_eq, bind, Except.bind, hskip]
    rw [addUsize_of_lt (by omega)]
    simp only [if_neg hdeep]
    rw [openNode_eq (s := { s with cursor := after }) _ (Nat.not_le.mp hdeep)]
    rfl

theorem exists_move_prop (hcursor : cursor ≤ block.length) (hdepth : depth < maxDepth)
    (strings : List UInt8) :
    ∃ move : Move, ∀ (ι : Type) (act : ι → NodeCall → ι) (s : Walk ι), s.cursor = cursor →
      s.depth = depth → propTurn block strings s = .ok (move.turn act s) := by
  have hbound : usizeBound = 2 ^ 64 := rfl
  have hlength : block.length < usizeBound := by omega
  cases hlen : word32 block cursor with
  | none =>
    refine ⟨.leave, ?_⟩
    rintro ι act s rfl rfl
    simp only [propTurn, be32_eq hlength, bind, Except.bind, hlen]
    rfl
  | some plen =>
  have hplen := plen.toNat_lt
  have hname : addUsize cursor 4 = .ok (cursor + 4) := addUsize_of_lt (by omega)
  cases hoff : word32 block (cursor + 4) with
  | none =>
    refine ⟨.leave, ?_⟩
    rintro ι act s rfl rfl
    simp only [propTurn, be32_eq hlength, bind, Except.bind, hlen, hname, hoff]
    rfl
  | some pnameoff =>
  have hvalue : addUsize cursor 8 = .ok (cursor + 8) := addUsize_of_lt (by omega)
  have hend : addUsize (cursor + 8) plen.toNat = .ok (cursor + 8 + plen.toNat) :=
    addUsize_of_lt (by omega)
  by_cases hbeyond : block.length < cursor + 8 + plen.toNat
  · refine ⟨.leave, ?_⟩
    rintro ι act s rfl rfl
    simp only [propTurn, be32_eq hlength, bind, Except.bind, hlen, hname, hoff, hvalue, hend,
      if_pos hbeyond]
    rfl
  · have hslice : slice block (cursor + 8) (cursor + 8 + plen.toNat) =
        .ok ((block.drop (cursor + 8)).take (cursor + 8 + plen.toNat - (cursor + 8))) :=
      slice_of_le (Nat.le_add_right _ _) (by omega)
    refine ⟨.prop (roundUp4 (cursor + 8 + plen.toNat)) (cstring strings pnameoff.toNat)
      ((block.drop (cursor + 8)).take (cursor + 8 + plen.toNat - (cursor + 8))), ?_⟩
    rintro ι act s rfl rfl
    simp only [propTurn, be32_eq hlength, bind, Except.bind, hlen, hname, hoff, hvalue, hend,
      if_neg hbeyond, hslice, cstr_eq]
    rw [handleProp_eq _ hdepth (by simp; omega)]
    simp only
    rw [align4_eq (by omega)]
    rfl

/-- The move at a token that ended at `cursor`. -/
theorem exists_move_token (hcursor : cursor ≤ block.length) (hdepth : depth < maxDepth)
    (strings : List UInt8) (token : UInt32) :
    ∃ move : Move, ∀ (ι : Type) (act : ι → NodeCall → ι) (s : Walk ι), s.cursor = cursor →
      s.depth = depth → tokenTurn act block strings token s = .ok (move.turn act s) := by
  by_cases hbegin : token = fdtBeginNode
  · obtain ⟨move, hmove⟩ := exists_move_begin hblock hcursor hdepth
    refine ⟨move, ?_⟩
    intro ι act s hat hin
    rw [tokenTurn, if_pos hbegin, hmove ι act s hat hin]
  by_cases hend : token = fdtEndNode
  · by_cases hroot : depth = 0
    · refine ⟨.leave, ?_⟩
      rintro ι act s - rfl
      rw [tokenTurn, if_neg hbegin, if_pos hend, if_pos hroot]
      rfl
    · refine ⟨.close cursor, ?_⟩
      rintro ι act s rfl rfl
      rw [tokenTurn, if_neg hbegin, if_pos hend, if_neg hroot, closeNode_eq act hdepth]
      rfl
  by_cases hprop : token = fdtProp
  · obtain ⟨move, hmove⟩ := exists_move_prop hblock hcursor hdepth strings
    refine ⟨move, ?_⟩
    intro ι act s hat hin
    rw [tokenTurn, if_neg hbegin, if_neg hend, if_pos hprop, hmove ι act s hat hin]
  by_cases hnop : token = fdtNop
  · refine ⟨.skip cursor, ?_⟩
    rintro ι act s rfl -
    rw [tokenTurn, if_neg hbegin, if_neg hend, if_neg hprop, if_pos hnop]
    rfl
  · refine ⟨.leave, ?_⟩
    intro ι act s _ _
    rw [tokenTurn, if_neg hbegin, if_neg hend, if_neg hprop, if_neg hnop]
    rfl

/-- **The move at a cursor and a depth**, the same whatever the walk has found so far and
whatever it does with a node. -/
theorem exists_move (hcursor : cursor ≤ reach block) (hdepth : depth < maxDepth)
    (strings : List UInt8) :
    ∃ move : Move, ∀ (ι : Type) (act : ι → NodeCall → ι) (s : Walk ι), s.cursor = cursor →
      s.depth = depth → walkTurn act block strings s = .ok (move.turn act s) := by
  have hbound : usizeBound = 2 ^ 64 := rfl
  have hlength : block.length < usizeBound := by omega
  have hreach : reach block = block.length + 2 ^ 33 := rfl
  have hadd : addUsize cursor 4 = .ok (cursor + 4) := addUsize_of_lt (by omega)
  by_cases hshort : block.length < cursor + 4
  · refine ⟨.leave, ?_⟩
    rintro ι act s rfl rfl
    simp only [walkTurn, hadd, bind, Except.bind, if_pos hshort]
    rfl
  cases hword : word32 block cursor with
  | none =>
    refine ⟨.leave, ?_⟩
    rintro ι act s rfl rfl
    simp only [walkTurn, hadd, bind, Except.bind, if_neg hshort, be32_eq hlength, hword]
    rfl
  | some token =>
    obtain ⟨move, hmove⟩ :=
      exists_move_token hblock (Nat.not_lt.mp hshort) hdepth strings token
    refine ⟨move, ?_⟩
    rintro ι act s rfl rfl
    simp only [walkTurn, hadd, bind, Except.bind, if_neg hshort, be32_eq hlength, hword]
    rw [hmove ι act { s with cursor := s.cursor + 4 } rfl rfl, Move.turn_cursor]

end

theorem walkTurn_eq_move (act : ι → NodeCall → ι) (hblock : block.length ≤ 2 ^ 32) {s : Walk ι}
    (hinv : WalkInv block s) :
    ∃ move : Move, walkTurn act block strings s = .ok (move.turn act s) := by
  obtain ⟨move, hmove⟩ := exists_move hblock hinv.cursor_le hinv.depth_lt strings
  exact ⟨move, hmove ι act s rfl rfl⟩

/-! ## The calls of a walk -/

/-- The walk with another kind of information. -/
def Walk.map (f : ι → κ) (s : Walk ι) : Walk κ where
  cursor := s.cursor
  depth := s.depth
  frames := s.frames
  stdoutPath := s.stdoutPath
  inChosen := s.inChosen
  info := f s.info

section Natural

variable {f : ι → κ} {act : ι → NodeCall → ι} {act' : κ → NodeCall → κ}

theorem Move.turn_map (hf : ∀ info call, act' (f info) call = f (act info call)) (move : Move)
    (s : Walk ι) : move.turn act' (s.map f) = (move.turn act s).map (Walk.map f) f := by
  cases move with
  | close cursor =>
    simp only [turn, Turn.map, Walk.closed, Walk.map, Walk.current, hf]
    rfl
  | leave => rfl
  | skip cursor => rfl
  | enter cursor name => rfl
  | prop cursor name value => rfl

theorem walkInv_next (hblock : block.length ≤ 2 ^ 32) {s next : Walk ι} (hinv : WalkInv block s)
    (hturn : walkTurn act block strings s = .ok (.again next)) : WalkInv block next := by
  obtain ⟨turn, hok, hpost⟩ : Returns (walkTurn act block strings s) _ :=
    walkTurn_returns act hblock s hinv
  rw [hturn] at hok
  cases hok
  exact hpost.1

/-- What is done with the nodes does not change which nodes are found. -/
theorem walkWith_map (hf : ∀ info call, act' (f info) call = f (act info call))
    (hblock : block.length ≤ 2 ^ 32) (info : ι) :
    walkWith act' block strings (f info) = (walkWith act block strings info).map f := by
  have hbody : ∀ s : Walk ι, WalkInv block s → walkTurn act' block strings (s.map f) =
      (walkTurn act block strings s).map (Turn.map (Walk.map f) f) := by
    intro s hinv
    obtain ⟨move, hmove⟩ := exists_move hblock hinv.cursor_le hinv.depth_lt strings
    rw [hmove κ act' (s.map f) rfl rfl, hmove ι act s rfl rfl, Move.turn_map hf]
    rfl
  exact loop_map hbody (fun _ _ hinv hturn => walkInv_next hblock hinv hturn) (block.length + 1)
    { cursor := 0, depth := 0, frames := startFrames, stdoutPath := "", inChosen := false, info }
    ⟨Nat.zero_le _, Nat.succ_pos 7⟩

end Natural

/-- The calls of `act_on_node` in the walk over two blocks. -/
def callsOf (block strings : List UInt8) : Checked (List NodeCall) :=
  walkWith (fun calls call => calls ++ [call]) block strings []

theorem walkWith_eq_foldl (act : ι → NodeCall → ι) (hblock : block.length ≤ 2 ^ 32) (info : ι) :
    walkWith act block strings info =
      (callsOf block strings).map fun calls => calls.foldl act info := by
  refine walkWith_map (f := fun calls => calls.foldl act info) ?_ hblock []
  intro calls call
  rw [List.foldl_append]
  rfl

/-! ## The calls of a parse -/

/-- The struct block and the strings block of the blob at the start of `memory`, if the
parser gets to walk it. -/
def blocksAt (dtbAddr : UInt64) (memory : List UInt8) : Option (List UInt8 × List UInt8) :=
  if dtbAddr ≠ 0 ∧ word32 memory 0 = some fdtMagic ∧ headerSize ≤ totalsizeOf memory then do
    let offStruct ← word32 memory 8
    let offStrings ← word32 memory 12
    let sizeStruct ← word32 memory 36
    let stringsSize ← word32 memory 32
    if offStruct.toNat + sizeStruct.toNat ≤ totalsizeOf memory ∧
        offStrings.toNat + stringsSize.toNat ≤ totalsizeOf memory then
      some (bytesAt memory offStruct.toNat sizeStruct.toNat,
        bytesAt memory offStrings.toNat stringsSize.toNat)
    else none
  else none

/-- The calls of `act_on_node` when the blob at the start of `memory` is parsed. -/
def nodeCalls (dtbAddr : UInt64) (memory : List UInt8) : List NodeCall :=
  match blocksAt dtbAddr memory with
  | none => []
  | some (structBlock, stringsBlock) => (callsOf structBlock stringsBlock).toOption.getD []

section Parsing

variable {dtbAddr : UInt64} {memory structBlock stringsBlock : List UInt8} {info : BootInfo}

theorem nodeCalls_of_none (hblocks : blocksAt dtbAddr memory = none) :
    nodeCalls dtbAddr memory = [] := by
  rw [nodeCalls, hblocks]

theorem length_le_of_blocksAt
    (hblocks : blocksAt dtbAddr memory = some (structBlock, stringsBlock)) :
    structBlock.length ≤ 2 ^ 32 := by
  have hlt := totalsizeOf_lt memory
  unfold blocksAt at hblocks
  split at hblocks
  case isFalse => cases hblocks
  case isTrue =>
  simp only [Option.bind_eq_bind, Option.bind_eq_some_iff] at hblocks
  obtain ⟨offStruct, _, offStrings, _, sizeStruct, _, stringsSize, _, hblocks⟩ := hblocks
  split at hblocks
  case isFalse => cases hblocks
  case isTrue hinside =>
    cases hblocks
    exact (length_bytesAt_le _ _ _).trans (by omega)

/-- The walk of the blocks of a blob. -/
theorem walk_eq_foldl_nodeCalls
    (hblocks : blocksAt dtbAddr memory = some (structBlock, stringsBlock)) (start : BootInfo) :
    walk structBlock stringsBlock start =
      .ok ((nodeCalls dtbAddr memory).foldl actOnNode start) := by
  have hsize := length_le_of_blocksAt hblocks
  obtain ⟨calls, hcalls, _⟩ : Returns (callsOf structBlock stringsBlock) fun _ => True :=
    walkWith_returns _ hsize _
  have hnodes : nodeCalls dtbAddr memory = calls := by
    rw [nodeCalls, hblocks]
    simp only [hcalls]
    rfl
  rw [walk, walkWith_eq_foldl _ hsize, hcalls, hnodes]
  rfl

/-- The four words of a header that say where the blocks are. -/
theorem exists_header_words (hforty : 40 ≤ memory.length) :
    ∃ offStruct offStrings sizeStruct stringsSize, word32 memory 8 = some offStruct ∧
      word32 memory 12 = some offStrings ∧ word32 memory 36 = some sizeStruct ∧
      word32 memory 32 = some stringsSize := by
  have hword : ∀ off, off + 4 ≤ 40 → ∃ word, word32 memory off = some word := by
    intro off hoff
    rw [word32, wordAt, if_pos (by omega)]
    exact ⟨_, rfl⟩
  obtain ⟨offStruct, hoffStruct⟩ := hword 8 (by omega)
  obtain ⟨offStrings, hoffStrings⟩ := hword 12 (by omega)
  obtain ⟨sizeStruct, hsizeStruct⟩ := hword 36 (by omega)
  obtain ⟨stringsSize, hstringsSize⟩ := hword 32 (by omega)
  exact ⟨_, _, _, _, hoffStruct, hoffStrings, hsizeStruct, hstringsSize⟩

theorem saturatingAddUsize_toNat (a b : UInt32) :
    saturatingAddUsize a.toNat b.toNat = a.toNat + b.toNat := by
  have ha := a.toNat_lt
  have hb := b.toNat_lt
  rw [saturatingAddUsize, usizeBound]
  omega

/-- A blob that is mapped is walked if it has blocks, and otherwise left alone. -/
theorem parseBlob_eq (hheader : headerSize ≤ totalsizeOf memory)
    (htotal : totalsizeOf memory ≤ memory.length) (haddr : dtbAddr ≠ 0)
    (hmagic : word32 memory 0 = some fdtMagic) (start : BootInfo) :
    parseBlob start (totalsizeOf memory) (memory.take (totalsizeOf memory)) =
      .ok ((nodeCalls dtbAddr memory).foldl actOnNode start) := by
  have hforty : 40 ≤ totalsizeOf memory := hheader
  have hlt := totalsizeOf_lt memory
  have hbound : usizeBound = 2 ^ 64 := rfl
  have hlength : (memory.take (totalsizeOf memory)).length < usizeBound := by
    rw [List.length_take]
    omega
  obtain ⟨offStruct, offStrings, sizeStruct, stringsSize, hoffStruct, hoffStrings, hsizeStruct,
    hstringsSize⟩ := exists_header_words (hforty.trans htotal)
  have hblocks : blocksAt dtbAddr memory =
      if offStruct.toNat + sizeStruct.toNat ≤ totalsizeOf memory ∧
          offStrings.toNat + stringsSize.toNat ≤ totalsizeOf memory then
        some (bytesAt memory offStruct.toNat sizeStruct.toNat,
          bytesAt memory offStrings.toNat stringsSize.toNat)
      else none := by
    rw [blocksAt, if_pos ⟨haddr, hmagic, hheader⟩, hoffStruct, hoffStrings, hsizeStruct,
      hstringsSize]
    rfl
  simp only [parseBlob, be32_eq hlength, bind, Except.bind]
  rw [word32_take (by omega) htotal, word32_take (by omega) htotal, word32_take (by omega) htotal,
    word32_take (by omega) htotal, hoffStruct, hoffStrings, hsizeStruct, hstringsSize]
  simp only [saturatingAddUsize_toNat]
  by_cases hinside : offStruct.toNat + sizeStruct.toNat ≤ totalsizeOf memory ∧
      offStrings.toNat + stringsSize.toNat ≤ totalsizeOf memory
  case neg =>
    rw [if_neg hinside] at hblocks
    rw [if_pos (by omega), nodeCalls_of_none hblocks]
    rfl
  case pos =>
    rw [if_pos hinside] at hblocks
    rw [if_neg (by omega), addUsize_of_lt (by omega)]
    simp only
    rw [slice_take (by omega) htotal, addUsize_of_lt (by omega)]
    simp only
    rw [slice_take (by omega) htotal]
    exact walk_eq_foldl_nodeCalls hblocks start

/-- **The parser is a fold over the nodes of the blob**, whatever bytes the blob has. -/
theorem parseOrFallback_eq_foldl (hparse : parseOrFallback dtbAddr memory = .ok info) :
    info = (nodeCalls dtbAddr memory).foldl actOnNode (initialInfo dtbAddr) := by
  have hbound : usizeBound = 2 ^ 64 := rfl
  have hnothing : .ok (initialInfo dtbAddr) = Except.ok (ε := Fault) info →
      blocksAt dtbAddr memory = none →
        info = (nodeCalls dtbAddr memory).foldl actOnNode (initialInfo dtbAddr) := by
    intro hok hblocks
    rw [nodeCalls_of_none hblocks]
    exact (Except.ok.inj hok).symm
  unfold parseOrFallback at hparse
  split at hparse
  case isTrue haddr =>
    exact hnothing hparse (if_neg fun h => h.1 haddr)
  case isFalse haddr =>
  obtain ⟨header, hheader, hparse⟩ := bind_eq_ok.mp hparse
  obtain ⟨_, hforty, rfl⟩ := slice_eq_ok.mp hheader
  have hlength : (memory.take headerSize).length < usizeBound := by
    rw [List.length_take, headerSize]
    omega
  have htoNat : (UInt32.ofNat (totalsizeOf memory)).toNat = totalsizeOf memory :=
    UInt32.toNat_ofNat_of_lt' (totalsizeOf_lt memory)
  simp only [List.drop_zero, Nat.sub_zero, be32_eq hlength, bind, Except.bind,
    word32_take (show 0 + 4 ≤ headerSize by decide) hforty, word32_totalsize hforty,
    htoNat] at hparse
  cases hword : word32 memory 0 with
  | none =>
    rw [hword] at hparse
    exact hnothing hparse (if_neg fun h => by simp [hword] at h)
  | some magic =>
  rw [hword] at hparse
  simp only at hparse
  split at hparse
  case isTrue hmagic =>
    exact hnothing hparse (if_neg fun h => hmagic (Option.some.inj (hword.symm.trans h.2.1)))
  case isFalse hmagic =>
  split at hparse
  case isTrue hshort =>
    exact hnothing hparse (if_neg fun h => absurd h.2.2 (Nat.not_le.mpr hshort))
  case isFalse hlong =>
  obtain ⟨blob, hblob, hparse⟩ := bind_eq_ok.mp hparse
  obtain ⟨_, htotal, rfl⟩ := slice_eq_ok.mp hblob
  rw [List.drop_zero, Nat.sub_zero] at hparse
  have hwalk := parseBlob_eq (Nat.not_lt.mp hlong) htotal haddr
    (hword.trans (congrArg some (not_not.mp hmagic))) (initialInfo dtbAddr)
  exact Except.ok.inj (hparse.symm.trans hwalk)

theorem blocksAt_of_blocks {offStruct offStrings : UInt32} (haddr : dtbAddr ≠ 0)
    (hblocks : Blocks memory offStruct offStrings structBlock stringsBlock) :
    blocksAt dtbAddr memory = some (structBlock, stringsBlock) := by
  have hlt := totalsizeOf_lt memory
  have hstruct := hblocks.struct_le
  have hstrings := hblocks.strings_le
  have hstructSize : (UInt32.ofNat structBlock.length).toNat = structBlock.length :=
    UInt32.toNat_ofNat_of_lt' (by show structBlock.length < 2 ^ 32; omega)
  have hstringsSize : (UInt32.ofNat stringsBlock.length).toNat = stringsBlock.length :=
    UInt32.toNat_ofNat_of_lt' (by show stringsBlock.length < 2 ^ 32; omega)
  rw [blocksAt, if_pos ⟨haddr, hblocks.magic, hblocks.header_le⟩, hblocks.struct_off,
    hblocks.strings_off, hblocks.struct_size, hblocks.strings_size]
  simp only [Option.bind_eq_bind, Option.bind_some, hstructSize, hstringsSize]
  rw [if_pos ⟨hstruct, hstrings⟩, hblocks.struct_eq, hblocks.strings_eq]

/-- The nodes of the blob of a tree are those of the tree. -/
theorem nodeCalls_of_tree {root : Node} (haddr : dtbAddr ≠ 0) (htree : HoldsTree memory root) :
    nodeCalls dtbAddr memory = root.calls := by
  obtain ⟨offStruct, offStrings, tokens, off, strings, hblocks, htokens, hvalid⟩ := htree
  have hsize : (encodeAll off tokens).length < 2 ^ 32 := by
    have hlt := totalsizeOf_lt memory
    have hle := hblocks.struct_le
    omega
  have hcalls : callsOf (encodeAll off tokens) strings = .ok root.calls := by
    rw [callsOf, walkWith_eq_fold htokens hvalid hsize]
    simp [← List.flatMap_def]
  rw [nodeCalls, blocksAt_of_blocks haddr hblocks]
  simp only [hcalls]
  rfl

end Parsing

/-! ## What holds of every call -/

section Frames

variable {P : Frame → Prop}

/-- `P` holds of every frame of a walk, and every call it recorded was made with such a
frame. -/
structure AllFrames (P : Frame → Prop) (s : Walk (List NodeCall)) : Prop where
  frames : ∀ i, P (frameAt s.frames i)
  calls : ∀ call ∈ s.info, ∃ frame stdoutPath inChosen,
    P frame ∧ call = frame.call stdoutPath inChosen

theorem frameAt_startFrames (i : ℕ) :
    frameAt startFrames i = {} ∨ frameAt startFrames i = aboveRoot := by
  by_cases hi : i = 0
  · subst hi
    exact .inr rfl
  · rw [startFrames, frameAt_set_of_ne _ hi, frameAt]
    by_cases hlt : i < maxDepth
    · simp [hlt]
    · simp [hlt]

theorem forall_frameAt_set {frames : Vector Frame maxDepth} {i : ℕ} {frame : Frame}
    (hi : i < maxDepth) (hframes : ∀ j, P (frameAt frames j)) (hframe : P frame) :
    ∀ j, P (frameAt (frames.setIfInBounds i frame) j) := by
  intro j
  by_cases hj : j = i
  · subst hj
    rwa [frameAt_set_self _ hi]
  · rw [frameAt_set_of_ne _ hj]
    exact hframes j

variable (hchild : ∀ parent name, P (Frame.child parent name))
  (hprop : ∀ frame parent name value, P frame → P (Frame.withProp frame parent name value))

include hchild hprop

theorem AllFrames.turn {s next : Walk (List NodeCall)} {move : Move} (hall : AllFrames P s)
    (hdepth : next.depth < maxDepth) (hcurrent : s.depth < maxDepth)
    (hturn : move.turn (fun calls call => calls ++ [call]) s = .again next) : AllFrames P next := by
  cases move with
  | leave => cases hturn
  | skip cursor =>
    cases hturn
    exact ⟨hall.frames, hall.calls⟩
  | enter cursor name =>
    cases hturn
    exact ⟨forall_frameAt_set hdepth hall.frames (hchild _ name), hall.calls⟩
  | prop cursor name value =>
    cases hturn
    have hframe := hprop s.current (frameAt s.frames (s.depth - 1)) name value (hall.frames _)
    exact ⟨forall_frameAt_set hcurrent hall.frames hframe, hall.calls⟩
  | close cursor =>
    cases hturn
    refine ⟨hall.frames, ?_⟩
    intro call hcall
    rcases List.mem_append.mp hcall with hold | hnew
    · exact hall.calls call hold
    · exact ⟨s.current, s.stdoutPath, s.inChosen, hall.frames _, List.mem_singleton.mp hnew⟩

/-- The rule for the calls of a walk: `P` must hold of the frames at the start and of a
node that opens, and each property must keep it. -/
theorem forall_callsOf (hblank : P {}) (habove : P aboveRoot) {block strings : List UInt8}
    (hblock : block.length ≤ 2 ^ 32) :
    Returns (callsOf block strings) fun calls => ∀ call ∈ calls, ∃ frame stdoutPath inChosen,
      P frame ∧ call = frame.call stdoutPath inChosen := by
  have hstart : ∀ i, P (frameAt startFrames i) := by
    intro i
    rcases frameAt_startFrames i with hframe | hframe
    · rwa [hframe]
    · rwa [hframe]
  have hbody : ∀ s : Walk (List NodeCall), WalkInv block s ∧ AllFrames P s →
      Returns (walkTurn (fun calls call => calls ++ [call]) block strings s)
        (TurnPost (fun s => WalkInv block s ∧ AllFrames P s) (fun s => block.length - s.cursor)
          (fun calls => ∀ call ∈ calls, ∃ frame stdoutPath inChosen,
            P frame ∧ call = frame.call stdoutPath inChosen) s) := by
    rintro s ⟨hinv, hall⟩
    obtain ⟨turn, hok, hpost⟩ :
        Returns (walkTurn (fun calls call => calls ++ [call]) block strings s) _ :=
      walkTurn_returns _ hblock s hinv
    obtain ⟨move, hturn⟩ := walkTurn_eq_move (fun calls call => calls ++ [call]) hblock hinv
    have heq : move.turn (fun calls call => calls ++ [call]) s = turn :=
      Except.ok.inj (hturn.symm.trans hok)
    refine ⟨turn, hok, ?_⟩
    cases turn with
    | again next =>
      have hnext := hall.turn hchild hprop hpost.1.depth_lt hinv.depth_lt heq
      exact ⟨⟨hpost.1, hnext⟩, hpost.2⟩
    | leave calls =>
      cases move with
      | leave =>
        cases heq
        exact hall.calls
      | skip cursor => cases heq
      | enter cursor name => cases heq
      | prop cursor name value => cases heq
      | close cursor => cases heq
  exact returns_loop hbody _ _
    ⟨⟨Nat.zero_le _, Nat.succ_pos 7⟩, hstart, fun _ h => absurd h List.not_mem_nil⟩
    (Nat.lt_succ_of_le (Nat.sub_le _ _))

/-- What holds of every frame holds of every call of a parse. -/
theorem forall_nodeCalls (hblank : P {}) (habove : P aboveRoot) {dtbAddr : UInt64}
    {memory : List UInt8} :
    ∀ call ∈ nodeCalls dtbAddr memory, ∃ frame stdoutPath inChosen,
      P frame ∧ call = frame.call stdoutPath inChosen := by
  intro call hcall
  unfold nodeCalls at hcall
  split at hcall
  case h_1 => cases hcall
  case h_2 structBlock stringsBlock hblocks =>
    have hsize : structBlock.length ≤ 2 ^ 32 := length_le_of_blocksAt hblocks
    obtain ⟨calls, hcalls, hall⟩ : Returns (callsOf structBlock stringsBlock) _ :=
      forall_callsOf hchild hprop hblank habove hsize
    rw [hcalls] at hcall
    exact hall call hcall

end Frames

end Hyperion.Hal.Dtb
