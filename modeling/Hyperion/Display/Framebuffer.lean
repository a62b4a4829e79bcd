import Hyperion.Hal.BootInfo
import Hyperion.Lib.Memory
import Hyperion.Lib.Word

/-!
# Framebuffers, monitors and the compositor

`display/framebuffer.rs`, `display/monitor.rs`, `display/compositor.rs` and
`display/mod.rs`.  The pixel bytes of a framebuffer are a slice, on the heap or in a
region that the firmware set up, and every access to it is bounds-checked.  Arithmetic
wraps, as in the release build: that on `u32` and `i32` by the types, that on `usize`
where a sum could reach `2^64`.

The slice of an MMIO framebuffer is all that is kept of memory here.  `blit` indexes
two slices, so that the fault of a composition says whose slice it was.
-/

namespace Hyperion.Display

open Hyperion.Lib

inductive PixelFormat where
  | bgra8
  | rgba8
  deriving DecidableEq, Repr

def PixelFormat.bytesPerPixel : PixelFormat → ℕ
  | bgra8 | rgba8 => 4

/-- A colour, `[r, g, b, a]`. -/
structure Rgba where
  r : UInt8
  g : UInt8
  b : UInt8
  a : UInt8
  deriving DecidableEq, Repr

/-- Where the pixel bytes live, and what they are. -/
inductive FbBacking where
  | heap (bytes : List UInt8)
  | mmio (base : UInt64) (bytes : List UInt8)
  deriving DecidableEq, Repr

/-- A linear, row-major pixel buffer. -/
structure Framebuffer where
  width : UInt32
  height : UInt32
  /-- Bytes per row. -/
  stride : UInt32
  format : PixelFormat
  backing : FbBacking
  deriving DecidableEq, Repr

/-- `buf[off..off + 4].copy_from_slice(&pix)`.  Where `off + 4` would wrap, `off` is
outside any slice already. -/
def writePixel (buf : List UInt8) (off : ℕ) (pix : List UInt8) : Checked (List UInt8) :=
  copyFromSlice buf off (off + 4) pix

/-- One turn of the `while` loop of `clear` over a row. -/
def clearTurn (pix : List UInt8) (widthBytes rowStart : ℕ) :
    ℕ × List UInt8 → Checked (Turn (ℕ × List UInt8) (List UInt8))
  | (x, buf) =>
    if x < widthBytes then do
      let buf ← writePixel buf ((rowStart + x) % usizeBound) pix
      pure (.again (x + 4, buf))
    else pure (.leave buf)

namespace Framebuffer

/-- `Framebuffer::new`. -/
def new (width height : UInt32) (format : PixelFormat) : Framebuffer :=
  let stride := width * UInt32.ofNat format.bytesPerPixel
  { width, height, stride, format,
    backing := .heap (List.replicate (stride * height).toNat 0) }

/-- `Framebuffer::from_mmio`, where `mem` is what the region holds. -/
def fromMmio (mem : Memory) (base : UInt64) (width height stride : UInt32) (format : PixelFormat) :
    Framebuffer :=
  let len := stride.toNat * height.toNat
  { width, height, stride, format, backing := .mmio base (mem.bytesFrom base.toNat len) }

def pixels (fb : Framebuffer) : List UInt8 :=
  match fb.backing with
  | .heap bytes => bytes
  | .mmio _ bytes => bytes

/-- The framebuffer after writes through `pixels_mut`. -/
def withPixels (fb : Framebuffer) (bytes : List UInt8) : Framebuffer :=
  { fb with
    backing :=
      match fb.backing with
      | .heap _ => .heap bytes
      | .mmio base _ => .mmio base bytes }

def encodeRgba (fb : Framebuffer) (rgba : Rgba) : List UInt8 :=
  match fb.format with
  | .bgra8 => [rgba.b, rgba.g, rgba.r, rgba.a]
  | .rgba8 => [rgba.r, rgba.g, rgba.b, rgba.a]

def putPixel (fb : Framebuffer) (x y : UInt32) (rgba : Rgba) : Checked Framebuffer :=
  if fb.width ≤ x ∨ fb.height ≤ y then pure fb
  else do
    let off := (y * fb.stride + x * 4).toNat
    let buf ← writePixel fb.pixels off (fb.encodeRgba rgba)
    pure (fb.withPixels buf)

def clear (fb : Framebuffer) (rgba : Rgba) : Checked Framebuffer := do
  let pix := fb.encodeRgba rgba
  let widthBytes := fb.width.toNat * 4
  let buf ← (List.range fb.height.toNat).foldlM (fun buf y =>
    loop (clearTurn pix widthBytes (y * fb.stride.toNat)) (widthBytes + 1) (0, buf)) fb.pixels
  pure (fb.withPixels buf)

def fillRect (fb : Framebuffer) (x y w h : UInt32) (rgba : Rgba) : Checked Framebuffer := do
  let pix := fb.encodeRgba rgba
  let xEnd := min (x + w) fb.width
  let yEnd := min (y + h) fb.height
  let buf ← (List.range' y.toNat (yEnd.toNat - y.toNat)).foldlM (fun buf yy =>
    let rowStart := (yy * fb.stride.toNat + x.toNat * 4) % usizeBound
    (List.range (xEnd - x).toNat).foldlM (fun buf xx =>
      writePixel buf ((rowStart + xx * 4) % usizeBound) pix) buf) fb.pixels
  pure (fb.withPixels buf)

def strokeRect (fb : Framebuffer) (x y w h : UInt32) (rgba : Rgba) : Checked Framebuffer :=
  if w = 0 ∨ h = 0 then pure fb
  else do
    let fb ← fb.fillRect x y w 1 rgba
    let fb ← fb.fillRect x (y + saturatingSub32 h 1) w 1 rgba
    let fb ← fb.fillRect x y 1 h rgba
    fb.fillRect (x + saturatingSub32 w 1) y 1 h rgba

end Framebuffer

/-! ## Monitors -/

inductive MonitorKind where
  | physical
  | virtual
  deriving DecidableEq, Repr

structure Monitor where
  name : String
  kind : MonitorKind
  width : UInt32
  height : UInt32
  fb : Framebuffer
  id : UInt32
  deriving DecidableEq, Repr

namespace Monitor

/-- `Monitor::new_virtual`. -/
def newVirtual (name : String) (width height : UInt32) : Monitor :=
  { name, kind := .virtual, width, height, fb := .new width height .bgra8, id := 0xffffffff }

/-- `Monitor::new_physical`. -/
def newPhysical (name : String) (fb : Framebuffer) : Monitor :=
  { name, kind := .physical, width := fb.width, height := fb.height, fb, id := 0xffffffff }

end Monitor

/-- `register_monitor`, on the list of monitors. -/
def registerMonitor (monitors : List Monitor) (m : Monitor) : List Monitor :=
  monitors ++ [{ m with id := UInt32.ofNat monitors.length }]

/-- `get`, on the list of monitors. -/
def get (monitors : List Monitor) (id : UInt32) : Option Monitor := monitors[id.toNat]?

/-- The `match` on the format of the firmware's framebuffer. -/
def formatFor : Hal.PixelFormat → PixelFormat
  | .bgra8888 => .bgra8
  | .rgba8888 => .rgba8

/-- `init`, which runs once, before any other monitor is registered.  `mem` is what the
firmware's framebuffer holds. -/
def init (mem : Memory) (info : Hal.BootInfo) (monitors : List Monitor) : List Monitor :=
  match info.framebuffer with
  | some fb =>
    let scanout :=
      Framebuffer.fromMmio mem fb.base fb.width fb.height fb.strideBytes (formatFor fb.format)
    registerMonitor monitors (.newPhysical "fb0" scanout)
  | none => registerMonitor monitors (.newVirtual "monitor0" 1280 720)

/-! ## The compositor -/

/-- Whose slice was indexed outside its bounds. -/
inductive Surface where
  | target
  | layer
  deriving DecidableEq, Repr

/-- A drawing that may fault on one of several surfaces. -/
abbrev Drawing (α : Type) := Except (Surface × Fault) α

/-- An access to the slice of `surface`. -/
def on {α : Type} (surface : Surface) (x : Checked α) : Drawing α := x.mapError (surface, ·)

/-- A framebuffer at a place and a height in the stack. -/
structure Layer where
  fb : Framebuffer
  x : Int32
  y : Int32
  z : Int32
  deriving DecidableEq, Repr

/-- The inner loop of `blit`, for the pixel `sx` of the source row `sy`, which is drawn
at the row `dy`. -/
def blitPixel (dst src : Framebuffer) (x dy : Int32) (sy : UInt32) (buf : List UInt8)
    (sx : UInt32) :
    Drawing (List UInt8) :=
  let dx := x + sx.toInt32
  if dx < 0 ∨ dst.width ≤ dx.toUInt32 then pure buf
  else do
    let so := (sy * src.stride + sx * 4).toNat
    let off := (dy.toUInt32 * dst.stride + dx.toUInt32 * 4).toNat
    let alpha ← on .layer (index src.pixels (so + 3))
    if alpha = 0 then pure buf
    else
      let pix ← on .layer (slice src.pixels so (so + 4))
      on .target (writePixel buf off pix)

/-- One turn of the outer loop of `blit`. -/
def blitRow (dst src : Framebuffer) (x y : Int32) (buf : List UInt8) (sy : UInt32) :
    Drawing (List UInt8) :=
  let dy := y + sy.toInt32
  if dy < 0 ∨ dst.height ≤ dy.toUInt32 then pure buf
  else (List.range src.width.toNat).foldlM (fun buf sx =>
    blitPixel dst src x dy sy buf (UInt32.ofNat sx)) buf

def blit (dst src : Framebuffer) (x y : Int32) : Drawing Framebuffer := do
  let buf ← (List.range src.height.toNat).foldlM (fun buf sy =>
    blitRow dst src x y buf (UInt32.ofNat sy)) dst.pixels
  pure (dst.withPixels buf)

/-- The compositor of a monitor: its layers, in the order they were pushed, and the
background. -/
structure Compositor where
  layers : List Layer
  background : Rgba

namespace Compositor

/-- `Compositor::new`. -/
def new : Compositor := { layers := [], background := ⟨0x10, 0x18, 0x24, 0xff⟩ }

def setBackground (c : Compositor) (rgba : Rgba) : Compositor := { c with background := rgba }

def pushLayer (c : Compositor) (layer : Layer) : Compositor :=
  { c with layers := c.layers ++ [layer] }

/-- `Compositor::render`; `sort_by_key` is stable. -/
def render (c : Compositor) (monitor : Monitor) : Drawing Monitor := do
  let layers := c.layers.mergeSort fun a b => a.z ≤ b.z
  let target ← on .target (monitor.fb.clear c.background)
  let target ← layers.foldlM (fun target layer => blit target layer.fb layer.x layer.y) target
  pure { monitor with fb := target }

end Compositor

end Hyperion.Display
