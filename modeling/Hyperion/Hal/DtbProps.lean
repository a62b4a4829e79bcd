import Hyperion.Hal.Dtb
import Hyperion.Lib.Word

/-!
# What the parser's accesses return

The reads of the parser are total once the buffers are shorter than the address
space: `be32`, `be64` and `cstr` check their own bounds.  Each of them equals a
pure function here, and so does `handle_prop`.  Its pure form
`Frame.withProp` is the meaning of one property for the
node that has it: it depends on the node's own frame and on the cell counts of
its parent, and on nothing else in the per-depth arrays.  What a property and a node
leave alone follows from one rule for each, `Frame.withProp_rule` and `actOnNode_rule`.
-/

namespace Hyperion.Hal.Dtb

open Hyperion.Lib

/-! ## Reads -/

/-- The big-endian integer in the `width` bytes at `offset`, if they are there. -/
def wordAt (bytes : List UInt8) (offset width : ℕ) : Option ℕ :=
  if offset + width ≤ bytes.length then some (fromBe (bytesAt bytes offset width)) else none

def word32 (bytes : List UInt8) (offset : ℕ) : Option UInt32 :=
  (wordAt bytes offset 4).map UInt32.ofNat

def word64 (bytes : List UInt8) (offset : ℕ) : Option UInt64 :=
  (wordAt bytes offset 8).map UInt64.ofNat

/-- The string before the first NUL, if it is UTF-8. -/
def textOf (bytes : List UInt8) : Option String := fromUtf8 (bytes.takeWhile (· != 0))

/-- The string at `offset`, empty if it is not UTF-8. -/
def cstring (bytes : List UInt8) (offset : ℕ) : String := (textOf (bytes.drop offset)).getD ""

variable {bytes value : List UInt8}

theorem beAt_eq (hlength : bytes.length < usizeBound) (offset width : ℕ) :
    beAt bytes offset width = .ok (wordAt bytes offset width) := by
  unfold beAt wordAt checkedAddUsize
  by_cases hfits : offset + width ≤ bytes.length
  · rw [if_pos (by omega), if_pos hfits]
    simp only
    rw [if_neg (by omega), readBytes_of_le hfits]
    rfl
  · rw [if_neg hfits]
    by_cases husize : offset + width < usizeBound
    · rw [if_pos husize]
      simp only
      rw [if_pos (by omega)]
      rfl
    · rw [if_neg husize]
      rfl

theorem be32_eq (hlength : bytes.length < usizeBound) (offset : ℕ) :
    be32 bytes offset = .ok (word32 bytes offset) := by
  rw [be32, beAt_eq hlength]
  rfl

theorem be64_eq (hlength : bytes.length < usizeBound) (offset : ℕ) :
    be64 bytes offset = .ok (word64 bytes offset) := by
  rw [be64, beAt_eq hlength]
  rfl

theorem leadingStr_eq (bytes : List UInt8) : leadingStr bytes = .ok (textOf bytes) := by
  have htake : bytes.take (bytes.findIdx (· == 0)) = bytes.takeWhile (· != 0) := by
    rw [List.takeWhile_eq_take_findIdx_not]
    congr 2
    funext byte
    simp [bne]
  rw [leadingStr, slice_of_le (Nat.zero_le _) List.findIdx_le_length]
  simp only [List.drop_zero, Nat.sub_zero, htake]
  rfl

theorem cstr_eq (bytes : List UInt8) (offset : ℕ) :
    cstr bytes offset = .ok (cstring bytes offset) := by
  unfold cstr cstring
  split
  · rename_i hle
    rw [List.drop_eq_nil_of_le hle]
    rfl
  · rename_i hlt
    rw [slice_of_le (by omega) (le_refl _), List.take_of_length_le (by simp)]
    simp only [bind, Except.bind, leadingStr_eq]
    rfl

theorem utf8ByteSize_cstring_le (bytes : List UInt8) (offset : ℕ) :
    (cstring bytes offset).utf8ByteSize ≤ bytes.length - offset := by
  unfold cstring textOf
  cases htext : fromUtf8 ((bytes.drop offset).takeWhile (· != 0)) with
  | none => exact Nat.zero_le _
  | some s =>
    calc s.utf8ByteSize = ((bytes.drop offset).takeWhile (· != 0)).length :=
          utf8ByteSize_of_fromUtf8 htext
      _ ≤ (bytes.drop offset).length := (List.takeWhile_sublist _).length_le
      _ = bytes.length - offset := List.length_drop

theorem ldiff_three (n : ℕ) : Nat.ldiff n 3 = n / 4 * 4 := ldiff_two_pow_sub_one n 2

/-- Rounded up to a multiple of four. -/
def roundUp4 (n : ℕ) : ℕ := (n + 3) / 4 * 4

theorem align4_eq {cursor : ℕ} (hlt : cursor + 3 < usizeBound) :
    align4 cursor = .ok (roundUp4 cursor) := by
  rw [align4, addUsize_of_lt hlt]
  simp only [bind, Except.bind, ldiff_three]
  rfl

/-! ## Properties -/

/-- A cell value of one or two words; other widths read as zero. -/
def cellsAt (bytes : List UInt8) (offset cells : ℕ) : UInt64 :=
  if cells = 1 then ((word32 bytes offset).getD 0).toUInt64
  else if cells = 2 then (word64 bytes offset).getD 0
  else 0

theorem readCells_eq (hlength : bytes.length < usizeBound) (offset cells : ℕ) :
    readCells bytes offset cells = .ok (cellsAt bytes offset cells) := by
  unfold readCells cellsAt
  rw [be32_eq hlength, be64_eq hlength]
  split
  · rfl
  · split <;> rfl

theorem bpp_withFormat {text : Option String} {fb : FramebufferInfo} (hbpp : fb.bpp = 32) :
    (withFormat text fb).bpp = 32 := by
  cases text with
  | none => exact hbpp
  | some format => rfl

namespace Frame

def withFb (frame : Frame) (f : FramebufferInfo → FramebufferInfo) : Frame :=
  { frame with fb := some (f (frame.fb.getD blankFb)) }

/-- The first entry of a `reg` property, decoded with the parent's cell counts. -/
def withReg (frame parent : Frame) (value : List UInt8) : Frame :=
  let ac := max parent.addressCells.toNat 1
  let sc := max parent.sizeCells.toNat 1
  if value.length < (ac + sc) * 4 then frame
  else { frame with reg := some (cellsAt value 0 ac, cellsAt value (ac * 4) sc) }

def withWord (frame : Frame) (value : List UInt8) (edit : UInt32 → Frame → Frame) : Frame :=
  match word32 value 0 with
  | some v => edit v frame
  | none => frame

/-- One property of a node, as it changes what is known about the node. -/
def withProp (frame parent : Frame) (pname : String) (value : List UInt8) : Frame :=
  if pname = "#address-cells" then
    frame.withWord value fun v frame => { frame with addressCells := v }
  else if pname = "#size-cells" then
    frame.withWord value fun v frame => { frame with sizeCells := v }
  else if pname = "compatible" then { frame with compatible := (textOf value).getD "" }
  else if pname = "reg" then frame.withReg parent value
  else if pname = "clock-frequency" then
    frame.withWord value fun v frame => { frame with clock := v }
  else if pname = "width" then frame.withFb fun fb => { fb with width := (word32 value 0).getD 0 }
  else if pname = "height" then
    frame.withFb fun fb => { fb with height := (word32 value 0).getD 0 }
  else if pname = "stride" then
    frame.withFb fun fb => { fb with strideBytes := (word32 value 0).getD 0 }
  else if pname = "format" then frame.withFb (withFormat (textOf value))
  else frame

/-- A word changes one field or nothing. -/
theorem withWord_rule {P : Frame → Prop} {frame : Frame} {edit : UInt32 → Frame → Frame}
    (hframe : P frame) (hedit : ∀ v, P (edit v frame)) (value : List UInt8) :
    P (frame.withWord value edit) := by
  unfold withWord
  cases word32 value 0 with
  | none => exact hframe
  | some v => exact hedit v

theorem withReg_rule {P : Frame → Prop} {frame : Frame} (hframe : P frame)
    (hreg : ∀ reg, P { frame with reg := some reg }) (parent : Frame) (value : List UInt8) :
    P (frame.withReg parent value) := by
  simp only [withReg]
  split
  · exact hframe
  · exact hreg _

/-- The rule for what a property keeps: it sets the field of the frame that it is called after
or none, and of the framebuffer it leaves the number of bits alone. -/
theorem withProp_rule {P : Frame → Prop} {frame : Frame} {pname : String} (hframe : P frame)
    (haddress : pname = "#address-cells" → ∀ v, P { frame with addressCells := v })
    (hsize : pname = "#size-cells" → ∀ v, P { frame with sizeCells := v })
    (hcompatible : pname = "compatible" → ∀ text, P { frame with compatible := text })
    (hreg : pname = "reg" → ∀ reg, P { frame with reg := some reg })
    (hclock : pname = "clock-frequency" → ∀ v, P { frame with clock := v })
    (hfb : ∀ f, (∀ fb, fb.bpp = 32 → (f fb).bpp = 32) → P (frame.withFb f))
    (parent : Frame) (value : List UInt8) : P (frame.withProp parent pname value) := by
  unfold withProp
  refine iteInduction (motive := P) (fun hname => withWord_rule hframe (haddress hname) value)
    fun _ => ?_
  refine iteInduction (motive := P) (fun hname => withWord_rule hframe (hsize hname) value)
    fun _ => ?_
  refine iteInduction (motive := P) (fun hname => hcompatible hname _) fun _ => ?_
  refine iteInduction (motive := P) (fun hname => withReg_rule hframe (hreg hname) parent value)
    fun _ => ?_
  refine iteInduction (motive := P) (fun hname => withWord_rule hframe (hclock hname) value)
    fun _ => ?_
  -- the numbers of the framebuffer
  refine iteInduction (motive := P) (fun _ => hfb _ fun _ h => h) fun _ => ?_
  refine iteInduction (motive := P) (fun _ => hfb _ fun _ h => h) fun _ => ?_
  refine iteInduction (motive := P) (fun _ => hfb _ fun _ h => h) fun _ => ?_
  exact iteInduction (motive := P) (fun _ => hfb _ fun _ h => bpp_withFormat h) fun _ => hframe

end Frame

/-- The `stdout-path` in force after a property, which counts inside `/chosen` only. -/
def stdoutAfter (inChosen : Bool) (stdoutPath pname : String) (value : List UInt8) : String :=
  if pname = "stdout-path" ∧ inChosen = true then (textOf value).getD stdoutPath else stdoutPath

/-! ## The per-depth arrays -/

/-- The frame at a depth. -/
def frameAt (frames : Vector Frame maxDepth) (i : ℕ) : Frame := frames[i]?.getD {}

section Frames

variable {frames : Vector Frame maxDepth} {i j : ℕ}

theorem indexArray_frames (hi : i < maxDepth) : indexArray frames i = .ok (frameAt frames i) := by
  rw [indexArray_of_lt hi, frameAt, Vector.getElem?_eq_getElem hi]
  rfl

theorem frameAt_set_self (frame : Frame) (hi : i < maxDepth) :
    frameAt (frames.setIfInBounds i frame) i = frame := by
  simp [frameAt, hi]

theorem frameAt_set_of_ne (frame : Frame) (hne : j ≠ i) :
    frameAt (frames.setIfInBounds i frame) j = frameAt frames j := by
  rw [frameAt, frameAt, Vector.getElem?_setIfInBounds_ne (Ne.symm hne)]

theorem set_frameAt : frames.setIfInBounds i (frameAt frames i) = frames := by
  apply Vector.ext
  intro k hk
  rw [Vector.getElem_setIfInBounds hk]
  split
  · rename_i heq
    subst heq
    rw [frameAt, Vector.getElem?_eq_getElem hk]
    rfl
  · rfl

end Frames

variable {ι : Type} {s : Walk ι}

/-- The walk with another frame at its depth. -/
def Walk.putFrame (s : Walk ι) (frame : Frame) : Walk ι :=
  { s with frames := s.frames.setIfInBounds s.depth frame }

/-- The frame of the current node. -/
def Walk.current (s : Walk ι) : Frame := frameAt s.frames s.depth

theorem putFrame_current (s : Walk ι) : s.putFrame s.current = s := by
  rw [Walk.putFrame, Walk.current, set_frameAt]

section

variable (hdepth : s.depth < maxDepth)

include hdepth

theorem editFrame_eq (edit : Frame → Frame) :
    s.editFrame s.depth edit = .ok (s.putFrame (edit s.current)) := by
  simp only [Walk.editFrame, indexArray_frames hdepth, bind, Except.bind, setArray_of_lt _ hdepth]
  rfl

theorem setWord_eq (hvalue : value.length < usizeBound) (edit : UInt32 → Frame → Frame) :
    setWord value edit s = .ok (s.putFrame (s.current.withWord value edit)) := by
  rw [setWord, be32_eq hvalue, Frame.withWord]
  cases word32 value 0 with
  | none =>
    rw [putFrame_current]
    rfl
  | some v => exact editFrame_eq hdepth (edit v)

theorem handleReg_eq (hvalue : value.length < usizeBound) :
    handleReg value s =
      .ok (s.putFrame (s.current.withReg (frameAt s.frames (s.depth - 1)) value)) := by
  have hparent : s.depth - 1 < maxDepth := by omega
  have haddr := (frameAt s.frames (s.depth - 1)).addressCells.toNat_lt
  have hsize := (frameAt s.frames (s.depth - 1)).sizeCells.toNat_lt
  have hbound : usizeBound = 2 ^ 64 := rfl
  unfold handleReg
  simp only [indexArray_frames hparent, bind, Except.bind]
  rw [addUsize_of_lt (by omega)]
  simp only
  rw [if_neg (by omega), mulUsize_of_lt (by omega)]
  simp only [Frame.withReg]
  split
  · rw [putFrame_current]
    rfl
  · rw [mulUsize_of_lt (by omega)]
    simp only [readCells_eq hvalue, editFrame_eq hdepth]

theorem fbSet_eq (f : FramebufferInfo → FramebufferInfo) :
    fbSet s s.depth f = .ok (s.putFrame (s.current.withFb f)) :=
  editFrame_eq hdepth _

theorem setFbWord_eq (hvalue : value.length < usizeBound)
    (edit : UInt32 → FramebufferInfo → FramebufferInfo) :
    setFbWord value edit s =
      .ok (s.putFrame (s.current.withFb (edit ((word32 value 0).getD 0)))) := by
  rw [setFbWord, be32_eq hvalue]
  exact fbSet_eq hdepth _

end

theorem handleStdoutPath_eq (s : Walk ι) (value : List UInt8) :
    handleStdoutPath value s = .ok { s with
      stdoutPath :=
        stdoutAfter (decide (1 ≤ s.depth) && s.inChosen) s.stdoutPath "stdout-path" value } := by
  unfold handleStdoutPath stdoutAfter
  rw [leadingStr_eq]
  by_cases hin : 1 ≤ s.depth ∧ s.inChosen = true
  · rw [if_pos hin, if_pos (by simpa using hin)]
    cases textOf value with
    | none => rfl
    | some text => rfl
  · rw [if_neg hin, if_neg (by simpa using hin)]
    rfl

/-- Two branches that agree up to `g` agree as a whole. -/
theorem ite_eq_map {α β : Type} {c : Prop} [Decidable c] (g : α → β) {x x' : β} {y y' : α}
    (hpos : x = g y) (hneg : x' = g y') : (if c then x else x') = g (if c then y else y') := by
  split
  · exact hpos
  · exact hneg

/-- The walk after a property of the current node. -/
def Walk.propped (s : Walk ι) (pname : String) (value : List UInt8) : Walk ι :=
  { s.putFrame (s.current.withProp (frameAt s.frames (s.depth - 1)) pname value) with
    stdoutPath := stdoutAfter (decide (1 ≤ s.depth) && s.inChosen) s.stdoutPath pname value }

/-- **`handle_prop` changes the frame of the current node and the `stdout-path`**, and
reads only that frame and the cell counts of the parent. -/
theorem handleProp_eq (pname : String) (hdepth : s.depth < maxDepth)
    (hvalue : value.length < usizeBound) :
    handleProp pname value s = .ok (s.propped pname value) := by
  unfold Walk.propped
  by_cases hstdout : pname = "stdout-path"
  · subst hstdout
    have hframe : s.current.withProp (frameAt s.frames (s.depth - 1)) "stdout-path" value =
        s.current := by simp [Frame.withProp]
    rw [hframe, putFrame_current]
    simpa [handleProp] using handleStdoutPath_eq s value
  · have hsame : stdoutAfter (decide (1 ≤ s.depth) && s.inChosen) s.stdoutPath pname value =
        s.stdoutPath := if_neg fun h => hstdout h.1
    rw [hsame]
    let put (frame : Frame) : Checked (Walk ι) := .ok (s.putFrame frame)
    show _ = put (s.current.withProp _ pname value)
    unfold handleProp Frame.withProp
    rw [if_neg hstdout]
    -- the remaining names come in the same order on both sides
    refine ite_eq_map put (setWord_eq hdepth hvalue _) ?_
    refine ite_eq_map put (setWord_eq hdepth hvalue _) ?_
    refine ite_eq_map put ?_ ?_
    · rw [leadingStr_eq]
      exact editFrame_eq hdepth _
    refine ite_eq_map put (handleReg_eq hdepth hvalue) ?_
    refine ite_eq_map put (setWord_eq hdepth hvalue _) ?_
    refine ite_eq_map put (setFbWord_eq hdepth hvalue _) ?_
    refine ite_eq_map put (setFbWord_eq hdepth hvalue _) ?_
    refine ite_eq_map put (setFbWord_eq hdepth hvalue _) ?_
    refine ite_eq_map put ?_ ?_
    · rw [setFbFormat, leadingStr_eq]
      exact fbSet_eq hdepth _
    show _ = Except.ok (s.putFrame s.current)
    rw [putFrame_current]
    rfl

/-! ## Nodes -/

/-- The walk after a node opened below the current one. -/
def Walk.opened (s : Walk ι) (name : String) : Walk ι :=
  { s with
    depth := s.depth + 1
    frames := s.frames.setIfInBounds (s.depth + 1) (s.current.child name)
    inChosen := s.inChosen || name == "chosen" }

/-- The walk after the current node closed. -/
def Walk.closed (act : ι → NodeCall → ι) (s : Walk ι) : Walk ι :=
  { s with
    info := act s.info (s.current.call s.stdoutPath s.inChosen)
    inChosen := if s.current.name = "chosen" then false else s.inChosen
    depth := s.depth - 1 }

theorem openNode_eq (name : String) (hdepth : s.depth + 1 < maxDepth) :
    openNode s name = .ok (s.opened name) := by
  have hbound : usizeBound = 2 ^ 64 := rfl
  have hmax : maxDepth = 8 := rfl
  simp only [openNode, bind, Except.bind]
  rw [addUsize_of_lt (by omega)]
  simp only [Nat.add_sub_cancel]
  rw [indexArray_frames (by omega)]
  simp only
  rw [setArray_of_lt _ hdepth]
  rfl

theorem closeNode_eq (act : ι → NodeCall → ι) (hdepth : s.depth < maxDepth) :
    closeNode act s = .ok (s.closed act) := by
  simp only [closeNode, bind, Except.bind, indexArray_frames hdepth]
  rfl

/-! ## Acting on a node -/

/-- The rule for what a node keeps when it closes: it sets the field for the kind of node that it
is taken for, or none. -/
theorem actOnNode_rule {P : BootInfo → Prop} {info : BootInfo} {call : NodeCall} (hkept : P info)
    (hmemory : startsWith call.name "memory" = true → ∀ memory, P { info with memory })
    (hintc : startsWith call.name "memory" ≠ true →
      compatibleMatches call.compatible ["arm,gic-v3"] = true ∨ compatibleMatches call.compatible
        ["arm,gic-400", "arm,cortex-a15-gic", "arm,cortex-a9-gic", "arm,gic"] = true →
      ∀ intc, P { info with intc })
    (htimer : ∀ timerFreqHz, P { info with timerFreqHz })
    (hconsole : ∀ console, P { info with console })
    (hscreen : ∀ fb, P { info with framebuffer := some fb }) : P (actOnNode info call) := by
  obtain ⟨name, compatible, reg, clockHz, fb, stdoutPath, inChosen⟩ := call
  delta actOnNode
  dsimp only
  refine iteInduction (motive := P) (fun hname => ?_) fun hname => ?_
  · cases reg with
    | none => exact hkept
    | some reg => exact hmemory hname _
  refine iteInduction (motive := P) (fun hv3 => ?_) fun _ => ?_
  · cases reg with
    | none => exact hkept
    | some reg => exact hintc hname (.inl hv3) _
  refine iteInduction (motive := P) (fun hv2 => ?_) fun _ => ?_
  · cases reg with
    | none => exact hkept
    | some reg => exact hintc hname (.inr hv2) _
  refine iteInduction (motive := P) (fun _ => htimer _) fun _ => ?_
  cases uartKindFor compatible with
  | some kind =>
    cases reg with
    | none => exact hkept
    | some reg =>
      refine iteInduction (motive := P) (fun _ => ?_) fun _ => ?_
      · exact iteInduction (motive := P) (fun _ => hconsole _) fun _ => hkept
      · exact iteInduction (motive := P) (fun _ => hconsole _) fun _ => hkept
  | none =>
    refine iteInduction (motive := P) (fun _ => ?_) fun _ => hkept
    cases fb with
    | none => exact hkept
    | some fb =>
      cases reg with
      | none => exact hkept
      | some reg => exact hscreen _

end Hyperion.Hal.Dtb
