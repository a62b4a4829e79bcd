import Hyperion.Display.Drawing
import Hyperion.Lib.Raster

/-!
# What a drawing shows

The slice of a well formed framebuffer is a raster.  `Drawn` is the exact effect of a drawing on
a framebuffer: a picture laid over the visible pixels, and no other byte and no number of the
framebuffer changed.  `clear` draws the colour everywhere (`drawn_clear`).
-/

namespace Hyperion.Display

open Hyperion.Lib

namespace Framebuffer

/-- How the visible pixels lie in the slice. -/
def raster (fb : Framebuffer) (hrows : fb.RowsFit) : Raster :=
  { width := fb.width.toNat, height := fb.height.toNat, stride := fb.stride.toNat, size := 4,
    rows := hrows }

/-- The four bytes of the pixel in column `p.1` of row `p.2`. -/
def pixelAt (fb : Framebuffer) (p : ℕ × ℕ) : List UInt8 :=
  bytesAt fb.pixels (p.2 * fb.stride.toNat + 4 * p.1) 4

/-- `out` is `fb` with the picture laid over it. -/
structure Drawn (fb : Framebuffer) (hrows : fb.RowsFit) (picture : Picture (ℕ × ℕ) (List UInt8))
    (out : Framebuffer) : Prop where
  same : out = fb.withPixels out.pixels
  painted : (fb.raster hrows).Painted picture fb.pixels out.pixels

@[simp] theorem withPixels_withPixels (fb : Framebuffer) (first second : List UInt8) :
    (fb.withPixels first).withPixels second = fb.withPixels second := by
  unfold withPixels
  cases fb.backing with
  | heap old => rfl
  | mmio base old => rfl

@[simp] theorem withPixels_pixels (fb : Framebuffer) : fb.withPixels fb.pixels = fb := by
  obtain ⟨width, height, stride, format, backing⟩ := fb
  cases backing with
  | heap bytes => rfl
  | mmio base bytes => rfl

end Framebuffer

section Drawn

variable {fb mid out : Framebuffer} {picture : Picture (ℕ × ℕ) (List UInt8)}

theorem Framebuffer.WellFormed.length_eq (hfb : fb.WellFormed) :
    fb.pixels.length = (fb.raster hfb.rows).stride * (fb.raster hfb.rows).height :=
  hfb.shape.length_eq

theorem Framebuffer.WellFormed.pixel_le (hfb : fb.WellFormed) {p : ℕ × ℕ}
    (hp : (fb.raster hfb.rows).Visible p) :
    p.2 * fb.stride.toNat + 4 * p.1 + 4 ≤ fb.pixels.length := by
  rw [hfb.length_eq]
  exact Raster.offset_le hp

theorem Framebuffer.WellFormed.withPixels (hfb : fb.WellFormed) {bytes : List UInt8}
    (hbytes : bytes.length = fb.pixels.length) : (fb.withPixels bytes).WellFormed :=
  (hfb.shape.withPixels (hbytes.trans hfb.length_eq)).wellFormed hfb.rows

theorem drawn_withPixels {hrows : fb.RowsFit} {bytes : List UInt8}
    (hpainted : (fb.raster hrows).Painted picture fb.pixels bytes) :
    fb.Drawn hrows picture (fb.withPixels bytes) :=
  ⟨by rw [Framebuffer.pixels_withPixels], by rwa [Framebuffer.pixels_withPixels]⟩

theorem drawn_none (hrows : fb.RowsFit) : fb.Drawn hrows (fun _ => none) fb :=
  ⟨fb.withPixels_pixels.symm, Raster.painted_none _⟩

namespace Framebuffer.Drawn

variable {hrows : fb.RowsFit}

theorem shape (hdrawn : fb.Drawn hrows picture out) :
    out.width = fb.width ∧ out.height = fb.height ∧ out.stride = fb.stride ∧
      out.format = fb.format := by
  rw [hdrawn.same]
  exact ⟨rfl, rfl, rfl, rfl⟩

theorem wellFormed (hfb : fb.WellFormed) (hdrawn : fb.Drawn hrows picture out) :
    out.WellFormed := by
  rw [hdrawn.same]
  exact hfb.withPixels hdrawn.painted.length_eq

theorem congr {picture' : Picture (ℕ × ℕ) (List UInt8)} (hdrawn : fb.Drawn hrows picture out)
    (heq : ∀ p, (fb.raster hrows).Visible p → picture p = picture' p) :
    fb.Drawn hrows picture' out :=
  ⟨hdrawn.same, hdrawn.painted.congr heq⟩

theorem trans {hmid : mid.RowsFit} {first second : Picture (ℕ × ℕ) (List UInt8)}
    (hfirst : fb.Drawn hrows first mid) (hsecond : mid.Drawn hmid second out) :
    fb.Drawn hrows (.atop second first) out := by
  obtain ⟨hsame, hpainted⟩ := hfirst
  generalize hbytes : mid.pixels = bytes at hsame hpainted
  subst hsame
  refine ⟨?_, hpainted.trans ?_⟩
  · rw [hsecond.same, withPixels_withPixels, pixels_withPixels]
  · rw [← hbytes]
    exact hsecond.painted

end Framebuffer.Drawn

end Drawn

/-! ## Writing pixels -/

section Writing

variable {fb : Framebuffer}

theorem length_pixelAt (hfb : fb.WellFormed) {p : ℕ × ℕ} (hp : (fb.raster hfb.rows).Visible p) :
    (fb.pixelAt p).length = 4 :=
  length_bytesAt (hfb.pixel_le hp)

theorem returns_writePixel_painted (hfb : fb.WellFormed) {buf pix : List UInt8}
    (hbuf : buf.length = fb.pixels.length) (hpix : pix.length = 4) {off : ℕ} {p : ℕ × ℕ}
    (hp : (fb.raster hfb.rows).Visible p) (hoff : off = p.2 * fb.stride.toNat + 4 * p.1) :
    Returns (writePixel buf off pix) ((fb.raster hfb.rows).Painted (.single p pix) buf) := by
  subst hoff
  have hle := hfb.pixel_le hp
  have hcopy := copyFromSlice_of_le (show _ + pix.length ≤ buf.length by rwa [hpix, hbuf])
  rw [hpix] at hcopy
  exact ⟨_, hcopy, Raster.painted_overwrite (hbuf.trans hfb.length_eq) hp hpix⟩

/-- The 32-bit offset of `put_pixel`. -/
theorem toNat_pixelOffset {x y stride : UInt32}
    (hlt : y.toNat * stride.toNat + 4 * x.toNat < 2 ^ 32) :
    (y * stride + x * 4).toNat = y.toNat * stride.toNat + 4 * x.toNat := by
  have hfour : (4 : UInt32).toNat = 4 := rfl
  rw [UInt32.toNat_add, UInt32.toNat_mul, UInt32.toNat_mul, hfour,
    Nat.mod_eq_of_lt (show y.toNat * stride.toNat < 2 ^ 32 by omega),
    Nat.mod_eq_of_lt (show x.toNat * 4 < 2 ^ 32 by omega), Nat.mod_eq_of_lt (by omega),
    Nat.mul_comm x.toNat]

/-- `put_pixel` sets its pixel, unless the offset of the pixel wraps. -/
theorem drawn_putPixel (hfb : fb.WellFormed) {x y : UInt32} (rgba : Rgba)
    (hfits : (fb.raster hfb.rows).Visible (x.toNat, y.toNat) →
      y.toNat * fb.stride.toNat + 4 * x.toNat < 2 ^ 32) :
    Returns (fb.putPixel x y rgba)
      (fb.Drawn hfb.rows (.area (· = (x.toNat, y.toNat)) (fb.encodeRgba rgba))) := by
  unfold Framebuffer.putPixel
  split
  case isTrue hoff =>
    rw [UInt32.le_iff_toNat_le, UInt32.le_iff_toNat_le] at hoff
    refine returns_pure ((drawn_none hfb.rows).congr ?_)
    rintro p ⟨hx, hy⟩
    refine (if_neg fun heq => ?_).symm
    rw [heq] at hx hy
    rcases hoff with hoff | hoff
    · exact absurd hx (not_lt.mpr hoff)
    · exact absurd hy (not_lt.mpr hoff)
  case isFalse hvisible =>
    rw [not_or, UInt32.not_le, UInt32.not_le, UInt32.lt_iff_toNat_lt,
      UInt32.lt_iff_toNat_lt] at hvisible
    have hp : (fb.raster hfb.rows).Visible (x.toNat, y.toNat) := hvisible
    apply (returns_writePixel_painted hfb rfl (fb.length_encodeRgba rgba) hp
      (toNat_pixelOffset (hfits hp))).bind
    intro buf hbuf
    exact returns_pure (drawn_withPixels hbuf)

/-- A row of the screen in one colour. -/
def rowPicture (pix : List UInt8) (y : ℕ) : Picture (ℕ × ℕ) (List UInt8) :=
  fun p => if p.2 = y then some pix else none

/-- What a row of `clear` shows after the bytes before `x`. -/
def rowUpTo (pix : List UInt8) (y x : ℕ) : Picture (ℕ × ℕ) (List UInt8) :=
  fun p => if p.2 = y ∧ 4 * p.1 < x then some pix else none

theorem atop_single_rowUpTo (pix : List UInt8) (y : ℕ) {x : ℕ} (hx : x % 4 = 0) :
    Picture.atop (.single (x / 4, y) pix) (rowUpTo pix y x) = rowUpTo pix y (x + 4) := by
  funext q
  rw [Picture.atop, Picture.single, rowUpTo, rowUpTo]
  by_cases heq : q = (x / 4, y)
  · subst heq
    have hinside : 4 * (x / 4) < x + 4 := by omega
    simp [hinside]
  · rw [if_neg heq, Option.none_or]
    congr 1
    rw [Prod.ext_iff] at heq
    exact propext (by omega)

theorem returns_clearRow_painted (hfb : fb.WellFormed) {pix buf : List UInt8}
    (hpix : pix.length = 4) (hbuf : buf.length = fb.pixels.length) {y : ℕ}
    (hy : y < fb.height.toNat) :
    Returns (loop (clearTurn pix (fb.width.toNat * 4) (y * fb.stride.toNat))
        (fb.width.toNat * 4 + 1) (0, buf))
      ((fb.raster hfb.rows).Painted (rowPicture pix y) buf) := by
  have hbody : ∀ state : ℕ × List UInt8,
      state.1 % 4 = 0 ∧ (fb.raster hfb.rows).Painted (rowUpTo pix y state.1) buf state.2 →
      Returns (clearTurn pix (fb.width.toNat * 4) (y * fb.stride.toNat) state)
        (TurnPost
          (fun state => state.1 % 4 = 0 ∧
            (fb.raster hfb.rows).Painted (rowUpTo pix y state.1) buf state.2)
          (fun state => fb.width.toNat * 4 - state.1)
          ((fb.raster hfb.rows).Painted (rowPicture pix y) buf) state) := by
    rintro ⟨x, now⟩ ⟨hx, hnow⟩
    dsimp only at hx hnow
    rw [clearTurn]
    split
    case isFalse hend =>
      refine returns_pure (hnow.congr ?_)
      intro p hp
      have hcolumn : p.1 < fb.width.toNat := hp.1
      have hpast : 4 * p.1 < x := by omega
      simp [rowUpTo, rowPicture, hpast]
    case isTrue hlt =>
      have hp : (fb.raster hfb.rows).Visible (x / 4, y) :=
        ⟨show x / 4 < fb.width.toNat by omega, hy⟩
      have hle : y * fb.stride.toNat + 4 * (x / 4) + 4 ≤ fb.pixels.length := hfb.pixel_le hp
      have harea := area_lt fb.height fb.stride
      rw [← hfb.shape.length_eq] at harea
      have hoff : (y * fb.stride.toNat + x) % usizeBound = y * fb.stride.toNat + 4 * (x / 4) := by
        rw [Nat.mod_eq_of_lt (by omega)]
        omega
      apply (returns_writePixel_painted hfb (hnow.length_eq.trans hbuf) hpix hp hoff).bind
      intro next hnext
      refine returns_pure ⟨⟨?_, (hnow.trans hnext).congr ?_⟩, ?_⟩
      · show (x + 4) % 4 = 0
        omega
      · exact fun q _ => congrFun (atop_single_rowUpTo pix y hx) q
      · show fb.width.toNat * 4 - (x + 4) < fb.width.toNat * 4 - x
        omega
  refine returns_loop hbody _ _ ⟨rfl, (Raster.painted_none buf).congr ?_⟩
    (Nat.lt_succ_of_le (Nat.sub_le _ _))
  exact fun p _ => (if_neg fun h => Nat.not_lt_zero _ h.2).symm

/-- `clear` draws the colour at every pixel. -/
theorem drawn_clear (hfb : fb.WellFormed) (rgba : Rgba) :
    Returns (fb.clear rgba) (fb.Drawn hfb.rows fun _ => some (fb.encodeRgba rgba)) := by
  have hpix := fb.length_encodeRgba rgba
  have hrows : Returns ((List.range fb.height.toNat).foldlM (fun buf y =>
      loop (clearTurn (fb.encodeRgba rgba) (fb.width.toNat * 4) (y * fb.stride.toNat))
        (fb.width.toNat * 4 + 1) (0, buf)) fb.pixels)
      ((fb.raster hfb.rows).Painted
        (.stack (rowPicture (fb.encodeRgba rgba)) (List.range fb.height.toNat)) fb.pixels) := by
    refine Picture.returns_foldlM_stack
      (R := fun picture => (fb.raster hfb.rows).Painted picture fb.pixels)
      (Raster.painted_none _) ?_
    intro y hy below buf hbuf
    refine (returns_clearRow_painted hfb hpix hbuf.length_eq (List.mem_range.mp hy)).mono ?_
    exact fun out hout => hbuf.trans hout
  unfold Framebuffer.clear
  apply hrows.bind
  intro buf hbuf
  refine returns_pure (drawn_withPixels (hbuf.congr ?_))
  intro p hp
  have hrow : p.2 ∈ List.range fb.height.toNat := List.mem_range.mpr hp.2
  rw [Picture.stack_eq_of_only hrow, rowPicture, if_pos rfl]
  exact fun y _ hne => if_neg hne.symm

end Writing

end Hyperion.Display
