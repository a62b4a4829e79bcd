import Hyperion.Display.Painter
import Hyperion.Ui.Canvas

/-!
# Text

`ui/font.rs` and `Canvas::draw_text` of `ui/canvas.rs`, with the arithmetic of the release build.

The drawing operations that programs call may be given any coordinates.  `fill_rect` and
`stroke_rect` clip them, `put_pixel` tests them, and `draw_char` tests the sign of each pixel
before.  So none of them leaves the slice or writes a byte that belongs to no visible pixel, in any
sequence of calls (`drawAll_touched`), on framebuffers whose offsets fit in `u32`.
-/

namespace Hyperion.Ui

open Hyperion.Lib Hyperion.Display

namespace Font8x8

/-- `MISSING`. -/
def missing : List UInt8 := List.replicate 8 0xff

/-- `GLYPHS`, each with the byte of its first row in front; the leftmost pixel of a row is in the
highest bit. -/
def glyphs : List (List UInt8) :=
  [ 0x0000000000000000, 0x183c3c1818001800, 0x3636000000000000, 0x36367f367f363600,
    0x0c3e031e301f0c00, 0x006333180c666300, 0x1c361c6e3b336e00, 0x0606030000000000,
    0x180c0606060c1800, 0x060c1818180c0600, 0x00663cff3c660000, 0x000c0c3f0c0c0000,
    0x00000000000c0c06, 0x0000003f00000000, 0x00000000000c0c00, 0x6030180c06030100,
    0x3e63737b6f673e00, 0x0c0e0c0c0c0c3f00, 0x1e33301c06333f00, 0x1e33301c30331e00,
    0x383c36337f307800, 0x3f031f3030331e00, 0x1c06031f33331e00, 0x3f3330180c0c0c00,
    0x1e33331e33331e00, 0x1e33333e30180e00, 0x000c0c00000c0c00, 0x000c0c00000c0c06,
    0x180c0603060c1800, 0x00003f00003f0000, 0x060c1830180c0600, 0x1e3330180c000c00,
    0x3e637b7b7b031e00, 0x0c1e33333f333300, 0x3f66663e66663f00, 0x3c66030303663c00,
    0x1f36666666361f00, 0x7f46161e16467f00, 0x7f46161e16060f00, 0x3c66030373667c00,
    0x3333333f33333300, 0x1e0c0c0c0c0c1e00, 0x7830303033331e00, 0x6766361e36666700,
    0x0f06060646667f00, 0x63777f7f6b636300, 0x63676f7b73636300, 0x1c36636363361c00,
    0x3f66663e06060f00, 0x1e3333333b1e3800, 0x3f66663e36666700, 0x1e33070e38331e00,
    0x3f2d0c0c0c0c1e00, 0x3333333333333f00, 0x33333333331e0c00, 0x6363636b7f776300,
    0x6363361c1c366300, 0x3333331e0c0c1e00, 0x7f6331184c667f00, 0x1e06060606061e00,
    0x03060c1830604000, 0x1e18181818181e00, 0x081c366300000000, 0x00000000000000ff,
    0x0c0c180000000000, 0x00001e303e336e00, 0x0706063e66663b00, 0x00001e3303331e00,
    0x3830303e33336e00, 0x00001e333f031e00, 0x1c36060f06060f00, 0x00006e33333e301f,
    0x0706366e66666700, 0x0c000e0c0c0c1e00, 0x300030303033331e, 0x070666361e366700,
    0x0e0c0c0c0c0c1e00, 0x0000337f7f6b6300, 0x00001f3333333300, 0x00001e3333331e00,
    0x00003b66663e060f, 0x00006e33333e3078, 0x00003b6e66060f00, 0x00003e031e301f00,
    0x080c3e0c0c2c1800, 0x0000333333336e00, 0x00003333331e0c00, 0x0000636b7f7f3600,
    0x000063361c366300, 0x00003333333e301f, 0x00003f190c263f00, 0x380c0c070c0c3800,
    0x1818180018181800, 0x070c0c380c0c0700, 0x6e3b000000000000 ].map (toBe 8)

def glyphFor (ch : Char) : Checked (List UInt8) :=
  if 0x20 ≤ ch.toNat ∧ ch.toNat ≤ 0x7e then index glyphs (ch.toNat - 0x20) else pure missing

/-- The inner loop of `draw_char`. -/
def drawRow (x y : Int32) (rgba : Rgba) (fb : Framebuffer) (bits : UInt8) (row : ℕ) :
    Checked Framebuffer :=
  (List.range 8).foldlM (fun fb col =>
    if (bits >>> UInt8.ofNat (7 - col)) &&& 1 = 1 then
      Canvas.plot fb (x + Int32.ofNat col) (y + Int32.ofNat row) rgba
    else pure fb) fb

def drawChar (fb : Framebuffer) (x y : Int32) (ch : Char) (rgba : Rgba) : Checked Framebuffer := do
  let glyph ← glyphFor ch
  glyph.zipIdx.foldlM (fun fb (bits, row) => drawRow x y rgba fb bits row) fb

theorem returns_glyphFor (ch : Char) : Returns (glyphFor ch) fun _ => True := by
  unfold glyphFor
  split
  case isTrue hprintable =>
    have hlen : glyphs.length = 95 := rfl
    exact ⟨_, index_of_lt (by omega), trivial⟩
  case isFalse => exact returns_pure trivial

end Font8x8

namespace Canvas

def clear (fb : Framebuffer) (rgba : Rgba) : Checked Framebuffer := fb.clear rgba

def drawText (fb : Framebuffer) (x y : Int32) (text : String) (rgba : Rgba) : Checked Framebuffer :=
  text.toList.zipIdx.foldlM (fun fb (ch, i) =>
    Font8x8.drawChar fb (x + Int32.ofNat i * 8) y ch rgba) fb

end Canvas

/-! ## Sequences of calls -/

/-- A call of one of the drawing operations. -/
inductive DrawCall where
  | clear (rgba : Rgba)
  | fillRect (x y : Int32) (w h : UInt32) (rgba : Rgba)
  | strokeRect (x y : Int32) (w h : UInt32) (rgba : Rgba)
  | drawText (x y : Int32) (text : String) (rgba : Rgba)
  | putPixel (x y : UInt32) (rgba : Rgba)
  deriving DecidableEq, Repr

def DrawCall.apply (fb : Framebuffer) : DrawCall → Checked Framebuffer
  | clear rgba => Canvas.clear fb rgba
  | fillRect x y w h rgba => Canvas.fillRect fb x y w h rgba
  | strokeRect x y w h rgba => Canvas.strokeRect fb x y w h rgba
  | drawText x y text rgba => Canvas.drawText fb x y text rgba
  | putPixel x y rgba => fb.putPixel x y rgba

def drawAll (calls : List DrawCall) (fb : Framebuffer) : Checked Framebuffer :=
  calls.foldlM DrawCall.apply fb

/-- `out` is `fb` with something drawn over its visible pixels. -/
def Touched (fb : Framebuffer) (hrows : fb.RowsFit) (out : Framebuffer) : Prop :=
  ∃ picture, fb.Drawn hrows picture out

section Touched

variable {fb mid out : Framebuffer}

theorem touched_self (hrows : fb.RowsFit) : Touched fb hrows fb := ⟨_, drawn_none hrows⟩

theorem Touched.trans {hrows : fb.RowsFit} {hmid : mid.RowsFit} (hfirst : Touched fb hrows mid)
    (hsecond : Touched mid hmid out) : Touched fb hrows out := by
  obtain ⟨first, hfirst⟩ := hfirst
  obtain ⟨second, hsecond⟩ := hsecond
  exact ⟨_, hfirst.trans hsecond⟩

theorem Touched.fitsU32 (hfb : fb.FitsU32) (htouched : Touched fb hfb.wellFormed.rows out) :
    out.FitsU32 := by
  obtain ⟨picture, hdrawn⟩ := htouched
  obtain ⟨_, hheight, hstride, _⟩ := hdrawn.shape
  refine ⟨hdrawn.wellFormed hfb.wellFormed, ?_⟩
  rw [hheight, hstride]
  exact hfb.small

/-- The rule for a loop that draws. -/
theorem returns_foldlM_touched {α : Type} {list : List α}
    {f : Framebuffer → α → Checked Framebuffer}
    (hturn : ∀ a ∈ list, ∀ (mid : Framebuffer) (hmid : mid.FitsU32),
      Returns (f mid a) (Touched mid hmid.wellFormed.rows)) (hfb : fb.FitsU32) :
    Returns (list.foldlM f fb) (Touched fb hfb.wellFormed.rows) := by
  refine returns_foldlM ?_ (touched_self _)
  intro a ha mid hmid
  exact (hturn a ha mid (hmid.fitsU32 hfb)).mono fun out hout => hmid.trans hout

end Touched

/-! ## One call -/

section Calls

variable {fb : Framebuffer}

theorem touched_plot (hfb : fb.FitsU32) (x y : Int32) (rgba : Rgba) :
    Returns (Canvas.plot fb x y rgba) (Touched fb hfb.wellFormed.rows) :=
  (drawn_plot hfb.wellFormed x y rgba fun _ hp _ _ => hfb.offset_lt hp).mono
    fun _ hout => ⟨_, hout⟩

theorem touched_drawChar (hfb : fb.FitsU32) (x y : Int32) (ch : Char) (rgba : Rgba) :
    Returns (Font8x8.drawChar fb x y ch rgba) (Touched fb hfb.wellFormed.rows) := by
  unfold Font8x8.drawChar
  apply (Font8x8.returns_glyphFor ch).bind
  intro glyph _
  refine returns_foldlM_touched ?_ hfb
  rintro ⟨bits, row⟩ _ mid hmid
  refine returns_foldlM_touched ?_ hmid
  intro col _ mid hmid
  split
  · exact touched_plot hmid _ _ rgba
  · exact returns_pure (touched_self _)

theorem touched_apply (hfb : fb.FitsU32) (call : DrawCall) :
    Returns (call.apply fb) (Touched fb hfb.wellFormed.rows) := by
  have hrows : 4 * fb.width.toNat ≤ fb.stride.toNat := hfb.wellFormed.rows
  cases call with
  | clear rgba => exact (drawn_clear hfb.wellFormed rgba).mono fun _ hout => ⟨_, hout⟩
  | fillRect x y w h rgba =>
    have hexact : Exact fb.width fb.height fb.stride hrows _ _ := fillRect_exact_clip x y w h
    exact (hexact fb hfb.wellFormed.shape rgba).mono fun _ hout => ⟨_, hout⟩
  | strokeRect x y w h rgba =>
    have hexact : Exact fb.width fb.height fb.stride hrows _ _ := strokeRect_exact_clip x y w h
    exact (hexact fb hfb.wellFormed.shape rgba).mono fun _ hout => ⟨_, hout⟩
  | drawText x y text rgba =>
    refine returns_foldlM_touched ?_ hfb
    rintro ⟨ch, i⟩ _ mid hmid
    exact touched_drawChar hmid _ y ch rgba
  | putPixel x y rgba =>
    exact (drawn_putPixel hfb.wellFormed rgba fun hp => hfb.offset_lt hp).mono
      fun _ hout => ⟨_, hout⟩

end Calls

/-- A sequence of calls returns, so no call leaves the slice.  The framebuffer keeps its numbers
and the length of its slice, and every byte that belongs to no visible pixel. -/
theorem drawAll_touched (fb : Framebuffer) (hfb : fb.FitsU32) (calls : List DrawCall) :
    Returns (drawAll calls fb) fun out =>
      out = fb.withPixels out.pixels ∧ out.pixels.length = fb.pixels.length ∧
        ∀ i, (fb.raster hfb.wellFormed.rows).Padding i → out.pixels[i]? = fb.pixels[i]? := by
  have htouched : Returns (drawAll calls fb) (Touched fb hfb.wellFormed.rows) :=
    returns_foldlM_touched (fun call _ mid hmid => touched_apply hmid call) hfb
  refine htouched.mono ?_
  rintro out ⟨picture, hdrawn⟩
  exact ⟨hdrawn.same, hdrawn.painted.length_eq, hdrawn.painted.padding⟩

/-- Calls over all edges of a screen of three columns and two rows. -/
theorem drawAll_touched_overEdges :
    Returns (drawAll [.clear marker, .fillRect (-1) (-1) 0xffffffff 9 marker,
        .strokeRect 2 1 7 7 marker, .drawText (-20) (-3) "Aé" marker, .putPixel 3 9 marker]
        (blank 3 2 16)) fun out =>
      out = (blank 3 2 16).withPixels out.pixels ∧
        out.pixels.length = (blank 3 2 16).pixels.length ∧
        ∀ i, ((blank 3 2 16).raster (show 4 * 3 ≤ 16 by decide)).Padding i →
          out.pixels[i]? = (blank 3 2 16).pixels[i]? :=
  drawAll_touched (blank 3 2 16)
    ⟨(hasShape_blank 3 2 16).wellFormed (by decide), by decide⟩ _

end Hyperion.Ui
