import Hyperion.Hal.BootInfo
import Hyperion.Lib.Bytes
import Hyperion.Lib.Text

/-!
# The device-tree parser

`hal/dtb.rs`.  The blob comes from the firmware and may be anything, so the
parser is modelled with every way in which it could stop the machine: each index
and slice, and each addition on `usize`, is a `Checked` operation.

The seven arrays that `walk` keeps per depth are one array of `Frame`s.  The loop
over the tokens is generic in what is done with a node when it closes (`act`), so
that the sequence of calls of `act_on_node` can be talked about; `walk` is the
instance with `actOnNode`.  `act_on_node` reads two fields of the walk's context,
which are part of the call.
-/

namespace Hyperion.Hal.Dtb

open Hyperion.Lib

def fdtMagic : UInt32 := 0xd00dfeed

def fdtBeginNode : UInt32 := 1
def fdtEndNode : UInt32 := 2
def fdtProp : UInt32 := 3
def fdtNop : UInt32 := 4
def fdtEnd : UInt32 := 9

/-- `size_of::<FdtHeader>()`. -/
def headerSize : ℕ := 40

def maxDepth : ℕ := 8

/-! ## Reading the blob -/

/-- The body of `be32` and `be64`: `width` bytes at `offset`, big-endian. -/
def beAt (bytes : List UInt8) (offset width : ℕ) : Checked (Option ℕ) :=
  match checkedAddUsize offset width with
  | none => pure none
  | some stop =>
    if bytes.length < stop then pure none
    else do
      let word ← readBytes bytes offset width
      pure (some (fromBe word))

def be32 (bytes : List UInt8) (offset : ℕ) : Checked (Option UInt32) := do
  let word ← beAt bytes offset 4
  pure (word.map UInt32.ofNat)

def be64 (bytes : List UInt8) (offset : ℕ) : Checked (Option UInt64) := do
  let word ← beAt bytes offset 8
  pure (word.map UInt64.ofNat)

/-- `from_utf8` of the bytes before the first NUL. -/
def leadingStr (bytes : List UInt8) : Checked (Option String) := do
  let text ← slice bytes 0 (bytes.findIdx (· == 0))
  pure (fromUtf8 text)

def cstr (bytes : List UInt8) (offset : ℕ) : Checked String :=
  if bytes.length ≤ offset then pure ""
  else do
    let tail ← slice bytes offset bytes.length
    let text ← leadingStr tail
    pure (text.getD "")

/-- `(cursor + 3) & !3`. -/
def align4 (cursor : ℕ) : Checked ℕ := do
  let sum ← addUsize cursor 3
  pure (Nat.ldiff sum 3)

/-- `cursor += name.len() + 1; cursor = (cursor + 3) & !3`. -/
def skipName (cursor : ℕ) (name : String) : Checked ℕ := do
  let width ← addUsize name.utf8ByteSize 1
  let cursor ← addUsize cursor width
  align4 cursor

/-! ## Per-node state -/

/-- What is remembered about the open node at one depth. -/
structure Frame where
  addressCells : UInt32 := 0
  sizeCells : UInt32 := 0
  compatible : String := ""
  reg : Option (UInt64 × UInt64) := none
  clock : UInt32 := 0
  name : String := ""
  fb : Option FramebufferInfo := none
  deriving DecidableEq, Repr

/-- The local variables of `walk`. -/
structure Walk (ι : Type) where
  cursor : ℕ
  depth : ℕ
  frames : Vector Frame maxDepth
  stdoutPath : String
  inChosen : Bool
  info : ι

/-- The arguments of one call of `act_on_node`. -/
structure NodeCall where
  name : String
  compatible : String
  reg : Option (UInt64 × UInt64)
  clockHz : UInt32
  fb : Option FramebufferInfo
  stdoutPath : String
  inChosen : Bool
  deriving DecidableEq, Repr

variable {ι : Type}

def Walk.editFrame (s : Walk ι) (i : ℕ) (edit : Frame → Frame) : Checked (Walk ι) := do
  let frame ← indexArray s.frames i
  let frames ← setArray s.frames i (edit frame)
  pure { s with frames }

/-! ## Properties -/

def readCells (bytes : List UInt8) (offset cells : ℕ) : Checked UInt64 :=
  if cells = 1 then do
    let word ← be32 bytes offset
    pure (word.getD 0).toUInt64
  else if cells = 2 then do
    let word ← be64 bytes offset
    pure (word.getD 0)
  else pure 0

/-- What `fb_set` starts from when a node has no framebuffer property yet. -/
def blankFb : FramebufferInfo where
  base := 0
  width := 0
  height := 0
  strideBytes := 0
  bpp := 32
  format := .bgra8888

def fbSet (s : Walk ι) (depth : ℕ) (f : FramebufferInfo → FramebufferInfo) : Checked (Walk ι) :=
  s.editFrame depth fun frame => { frame with fb := some (f (frame.fb.getD blankFb)) }

/-- The pixel format a `format` string stands for. -/
def pixelFormatFor (s : String) : PixelFormat :=
  if s = "a8b8g8r8" ∨ s = "x8b8g8r8" ∨ s = "r8g8b8a8" ∨ s = "r8g8b8x8" then .rgba8888
  else .bgra8888

/-- The `reg` arm of `handle_prop`. -/
def handleReg (value : List UInt8) (s : Walk ι) : Checked (Walk ι) := do
  let parent ← indexArray s.frames (s.depth - 1)
  let ac := max parent.addressCells.toNat 1
  let sc := max parent.sizeCells.toNat 1
  let entryWords ← addUsize ac sc
  if entryWords = 0 then pure s
  else
    let need ← mulUsize entryWords 4
    if value.length < need then pure s
    else
      let addr ← readCells value 0 ac
      let sizeOffset ← mulUsize ac 4
      let size ← readCells value sizeOffset sc
      s.editFrame s.depth fun frame => { frame with reg := some (addr, size) }

/-- `if let Some(v) = be32(value, 0) { …[depth] = v; }`. -/
def setWord (value : List UInt8) (edit : UInt32 → Frame → Frame) (s : Walk ι) :
    Checked (Walk ι) := do
  match ← be32 value 0 with
  | some v => s.editFrame s.depth (edit v)
  | none => pure s

/-- `fb_set(fb_props, depth, |fb| fb.… = be32(value, 0).unwrap_or(0))`. -/
def setFbWord (value : List UInt8) (edit : UInt32 → FramebufferInfo → FramebufferInfo)
    (s : Walk ι) : Checked (Walk ι) := do
  let word ← be32 value 0
  fbSet s s.depth (edit (word.getD 0))

/-- A framebuffer with the pixel format of a `format` string; one that is not UTF-8 is
ignored. -/
def withFormat (text : Option String) (fb : FramebufferInfo) : FramebufferInfo :=
  match text with
  | some format => { fb with format := pixelFormatFor format, bpp := 32 }
  | none => fb

/-- The `format` arm of `handle_prop`. -/
def setFbFormat (value : List UInt8) (s : Walk ι) : Checked (Walk ι) := do
  let text ← leadingStr value
  fbSet s s.depth (withFormat text)

/-- The `stdout-path` arm of `handle_prop`. -/
def handleStdoutPath (value : List UInt8) (s : Walk ι) : Checked (Walk ι) :=
  if 1 ≤ s.depth ∧ s.inChosen = true then do
    match ← leadingStr value with
    | some text => pure { s with stdoutPath := text }
    | none => pure s
  else pure s

def handleProp (pname : String) (value : List UInt8) (s : Walk ι) : Checked (Walk ι) :=
  if pname = "#address-cells" then
    setWord value (fun v frame => { frame with addressCells := v }) s
  else if pname = "#size-cells" then
    setWord value (fun v frame => { frame with sizeCells := v }) s
  else if pname = "compatible" then do
    let text ← leadingStr value
    s.editFrame s.depth fun frame => { frame with compatible := text.getD "" }
  else if pname = "reg" then handleReg value s
  else if pname = "clock-frequency" then
    setWord value (fun v frame => { frame with clock := v }) s
  else if pname = "stdout-path" then handleStdoutPath value s
  else if pname = "width" then setFbWord value (fun v fb => { fb with width := v }) s
  else if pname = "height" then setFbWord value (fun v fb => { fb with height := v }) s
  else if pname = "stride" then setFbWord value (fun v fb => { fb with strideBytes := v }) s
  else if pname = "format" then setFbFormat value s
  else pure s

/-! ## The walk -/

/-- The `match` on the token in the loop that skips a subtree nested too deeply, with
the cursor behind the token.  The loop runs on the cursor and the number of nodes
still open in the subtree.  It ends with the cursor at which the walk goes on, or
with nothing when `walk` returns from inside it. -/
def skipToken (block : List UInt8) (token : UInt32) (cursor nesting : ℕ) :
    Checked (Turn (ℕ × ℕ) (Option ℕ)) :=
  if token = fdtBeginNode then do
    let name ← cstr block cursor
    let cursor ← skipName cursor name
    let nesting ← addUsize nesting 1
    pure (.again (cursor, nesting))
  else if token = fdtEndNode then pure (.again (cursor, nesting - 1))
  else if token = fdtProp then do
    match ← be32 block cursor with
    | none => pure (.leave none)
    | some plen =>
      let width ← addUsize 8 plen.toNat
      let cursor ← addUsize cursor width
      let cursor ← align4 cursor
      pure (.again (cursor, nesting))
  else if token = fdtNop then pure (.again (cursor, nesting))
  else pure (.leave none)

/-- One turn of the skipping loop. -/
def skipTurn (block : List UInt8) (state : ℕ × ℕ) : Checked (Turn (ℕ × ℕ) (Option ℕ)) :=
  if state.2 = 0 then pure (.leave (some state.1))
  else do
    let afterToken ← addUsize state.1 4
    if block.length < afterToken then pure (.leave (some state.1))
    else
      match ← be32 block state.1 with
      | none => pure (.leave none)
      | some token => skipToken block token afterToken state.2

/-- The frame of a node that opens below `parent`, whose cell counts it inherits. -/
def Frame.child (parent : Frame) (name : String) : Frame :=
  { addressCells := parent.addressCells, sizeCells := parent.sizeCells, name }

/-- The node `name` opens below the current one. -/
def openNode (s : Walk ι) (name : String) : Checked (Walk ι) := do
  let depth ← addUsize s.depth 1
  let parent ← indexArray s.frames (depth - 1)
  let frames ← setArray s.frames depth (parent.child name)
  pure { s with depth, frames, inChosen := s.inChosen || name == "chosen" }

/-- The call of `act_on_node` for the node with this frame. -/
def Frame.call (frame : Frame) (stdoutPath : String) (inChosen : Bool) : NodeCall :=
  { name := frame.name, compatible := frame.compatible, reg := frame.reg, clockHz := frame.clock,
    fb := frame.fb, stdoutPath, inChosen }

/-- The current node closes and is acted on. -/
def closeNode (act : ι → NodeCall → ι) (s : Walk ι) : Checked (Walk ι) := do
  let frame ← indexArray s.frames s.depth
  pure { s with
    info := act s.info (frame.call s.stdoutPath s.inChosen)
    inChosen := if frame.name = "chosen" then false else s.inChosen
    depth := s.depth - 1 }

/-- The `FDT_BEGIN_NODE` arm, with the cursor behind the token. -/
def beginTurn (block : List UInt8) (s : Walk ι) : Checked (Turn (Walk ι) ι) := do
  let name ← cstr block s.cursor
  let cursor ← skipName s.cursor name
  let childDepth ← addUsize s.depth 1
  if maxDepth ≤ childDepth then
    match ← loop (skipTurn block) (block.length + 1) (cursor, 1) with
    | some cursor => pure (.again { s with cursor })
    | none => pure (.leave s.info)
  else
    let s ← openNode { s with cursor } name
    pure (.again s)

/-- The `FDT_PROP` arm, with the cursor behind the token. -/
def propTurn (block strings : List UInt8) (s : Walk ι) : Checked (Turn (Walk ι) ι) := do
  match ← be32 block s.cursor with
  | none => pure (.leave s.info)
  | some plen =>
    let nameAt ← addUsize s.cursor 4
    match ← be32 block nameAt with
    | none => pure (.leave s.info)
    | some pnameoff =>
      let cursor ← addUsize s.cursor 8
      let valueEnd ← addUsize cursor plen.toNat
      if block.length < valueEnd then pure (.leave s.info)
      else
        let value ← slice block cursor valueEnd
        let pname ← cstr strings pnameoff.toNat
        let s ← handleProp pname value s
        let cursor ← align4 valueEnd
        pure (.again { s with cursor })

/-- The `match` on the token in the main loop, with the cursor behind the token. -/
def tokenTurn (act : ι → NodeCall → ι) (block strings : List UInt8) (token : UInt32)
    (s : Walk ι) : Checked (Turn (Walk ι) ι) :=
  if token = fdtBeginNode then beginTurn block s
  else if token = fdtEndNode then
    if s.depth = 0 then pure (.leave s.info)
    else do
      let s ← closeNode act s
      pure (.again s)
  else if token = fdtProp then propTurn block strings s
  else if token = fdtNop then pure (.again s)
  else pure (.leave s.info)

/-- One turn of the main loop of `walk`. -/
def walkTurn (act : ι → NodeCall → ι) (block strings : List UInt8) (s : Walk ι) :
    Checked (Turn (Walk ι) ι) := do
  let afterToken ← addUsize s.cursor 4
  if block.length < afterToken then pure (.leave s.info)
  else
    match ← be32 block s.cursor with
    | none => pure (.leave s.info)
    | some token => tokenTurn act block strings token { s with cursor := afterToken }

/-- The per-depth arrays at the start: only the cell counts above the root are set. -/
def startFrames : Vector Frame maxDepth :=
  (Vector.replicate maxDepth {}).setIfInBounds 0 { addressCells := 2, sizeCells := 1 }

/-- `walk`, with `act` in the place of `act_on_node`. -/
def walkWith (act : ι → NodeCall → ι) (block strings : List UInt8) (info : ι) : Checked ι :=
  loop (walkTurn act block strings) (block.length + 1)
    { cursor := 0, depth := 0, frames := startFrames, stdoutPath := "", inChosen := false, info }

/-! ## Acting on a node -/

def compatibleMatches (compatible : String) (wanted : List String) : Bool :=
  wanted.any fun w => w == compatible

def uartKindFor (compatible : String) : Option ConsoleKind :=
  if compatibleMatches compatible ["arm,pl011", "arm,primecell"] then some .pl011
  else if compatibleMatches compatible
      ["ns16550", "ns16550a", "snps,dw-apb-uart", "fsl,16550", "nvidia,tegra20-uart"] then
    some .ns16550
  else if compatibleMatches compatible ["brcm,bcm2835-aux-uart", "brcm,bcm2837-aux-uart"] then
    some .bcmMiniUart
  else none

/-- `s.split(c).next()`. -/
def beforeFirst (c : Char) (s : String) : String := String.ofList (s.toList.takeWhile (· ≠ c))

/-- `s.rsplit(c).next()`. -/
def afterLast (c : Char) (s : String) : String :=
  String.ofList (s.toList.reverse.takeWhile (· ≠ c)).reverse

def pathMatchesNode (stdoutPath nodeName : String) : Bool :=
  if stdoutPath = "" ∨ nodeName = "" then false
  else
    let path := beforeFirst ':' stdoutPath
    let last := afterLast '/' path
    if last = nodeName then true
    else
      (last == "serial0" || last == "serial1" || last == "serial2") && contains nodeName "serial"
        || contains nodeName last
        || contains last (beforeFirst '@' nodeName)

/-- `u32::saturating_mul`. -/
def saturatingMul (a b : UInt32) : UInt32 := UInt32.ofNat (min (a.toNat * b.toNat) (2 ^ 32 - 1))

/-- The map is still the single bank of the fallback. -/
def hasFallbackMemory (info : BootInfo) : Bool :=
  info.memory.regions == [⟨0x40000000, 256 * 1024 * 1024⟩]

def actOnNode (info : BootInfo) (call : NodeCall) : BootInfo :=
  let { name, compatible, reg, clockHz, fb, stdoutPath, inChosen } := call
  if startsWith name "memory" then
    match reg with
    | some (base, size) =>
      let memory :=
        if info.fwTableAddr ≠ 0 ∧ hasFallbackMemory info then MemoryMap.empty
        else info.memory
      { info with memory := memory.push ⟨base, size⟩ }
    | none => info
  else if compatibleMatches compatible ["arm,gic-v3"] then
    match reg with
    | some (base, size) => { info with intc := ⟨.gicV3, ⟨base, size⟩, info.intc.secondary⟩ }
    | none => info
  else if compatibleMatches compatible
      ["arm,gic-400", "arm,cortex-a15-gic", "arm,cortex-a9-gic", "arm,gic"] then
    match reg with
    | some (base, size) => { info with intc := ⟨.gicV2, ⟨base, size⟩, info.intc.secondary⟩ }
    | none => info
  else if compatibleMatches compatible ["arm,armv8-timer", "arm,armv7-timer"] ∧ clockHz ≠ 0 then
    { info with timerFreqHz := clockHz }
  else
    match uartKindFor compatible with
    | some kind =>
      match reg with
      | some (base, size) =>
        let console : ConsoleSpec := { kind, regs := ⟨base, size⟩, clockHz }
        if stdoutPath ≠ "" then
          if pathMatchesNode stdoutPath name then { info with console } else info
        else if info.fwTableAddr ≠ 0 ∧ info.console.regs.base = 0x09000000 ∧
            info.console.kind = .pl011 then
          { info with console }
        else info
      | none => info
    | none =>
      if compatible = "simple-framebuffer" ∨ (inChosen = true ∧ startsWith name "framebuffer") then
        match fb, reg with
        | some fb, some (base, _) =>
          let strideBytes :=
            if fb.strideBytes = 0 ∧ fb.bpp ≠ 0 ∧ fb.width ≠ 0 then
              saturatingMul fb.width (fb.bpp / 8)
            else fb.strideBytes
          { info with framebuffer := some { fb with base, strideBytes } }
        | _, _ => info
      else info

def walk (block strings : List UInt8) (info : BootInfo) : Checked BootInfo :=
  walkWith actOnNode block strings info

/-! ## The entry point -/

/-- `slice_at`: the first `len` bytes of the memory at the blob's address, of which
`memory` is readable. -/
def sliceAt (memory : List UInt8) (len : ℕ) : Checked (List UInt8) := slice memory 0 len

/-- `parse_or_fallback` once the whole blob is mapped. -/
def parseBlob (info : BootInfo) (totalsize : ℕ) (blob : List UInt8) : Checked BootInfo := do
  match ← be32 blob 8 with
  | none => pure info
  | some offStruct =>
  match ← be32 blob 12 with
  | none => pure info
  | some offStrings =>
  match ← be32 blob 36 with
  | none => pure info
  | some sizeStruct =>
  match ← be32 blob 32 with
  | none => pure info
  | some stringsSize =>
  if totalsize < saturatingAddUsize offStruct.toNat sizeStruct.toNat ∨
      totalsize < saturatingAddUsize offStrings.toNat stringsSize.toNat then pure info
  else
    let structEnd ← addUsize offStruct.toNat sizeStruct.toNat
    let structBlock ← slice blob offStruct.toNat structEnd
    let stringsEnd ← addUsize offStrings.toNat stringsSize.toNat
    let stringsBlock ← slice blob offStrings.toNat stringsEnd
    walk structBlock stringsBlock info

/-- `parse_or_fallback` for a blob at `dtbAddr`, where `memory` is readable. -/
def parseOrFallback (dtbAddr : UInt64) (memory : List UInt8) : Checked BootInfo := do
  let info := { qemuVirtFallback with fwTableAddr := dtbAddr }
  if dtbAddr = 0 then pure info
  else
    let header ← sliceAt memory headerSize
    match ← be32 header 0 with
    | none => pure info
    | some magic =>
      if magic ≠ fdtMagic then pure info
      else
        match ← be32 header 4 with
        | none => pure info
        | some totalsize =>
          if totalsize.toNat < headerSize then pure info
          else
            let blob ← sliceAt memory totalsize.toNat
            parseBlob info totalsize.toNat blob

end Hyperion.Hal.Dtb
