import Hyperion.Display.Rects

/-!
# Clipped rectangles

`ui/canvas.rs`: `clip`, `Canvas::fill_rect` and `Canvas::stroke_rect`, with the arithmetic of the
release build.

`clip` moves a negative origin to zero and shortens the extent by what was cut off, in `i32`.  An
extent of `2^31` and more is negative there, so that nothing is left of it (`inBox_clip_iff`).
What `clip` returns lies inside the screen (`clip_inside`), where `fill_rect` and `stroke_rect`
are exact.  So `Canvas::fill_rect` is exact wherever `clip` is (`clip_fillRect_exact_iff`).

`Canvas::stroke_rect` outlines what `clip` returns, so it draws the part of the outline that is on
the screen and a line along each border of the screen that cuts the rectangle
(`onOutline_clip_iff`).  It is exact if each of these lines lies on the outline anyway
(`canvas_strokeRect_exact_iff`).
-/

namespace Hyperion.Ui

open Hyperion.Lib Hyperion.Display

def clip (x y : Int32) (w h sw sh : UInt32) : Box :=
  let nx := (max x 0).toUInt32
  let ny := (max y 0).toUInt32
  if sw ≤ nx ∨ sh ≤ ny then ⟨0, 0, 0, 0⟩
  else
    let mw := (max (w.toInt32 + min x 0) 0).toUInt32
    let mh := (max (h.toInt32 + min y 0) 0).toUInt32
    let nw := min mw (sw - nx)
    let nh := min mh (sh - ny)
    ⟨nx, ny, nw, nh⟩

namespace Canvas

/-- `if x >= 0 && y >= 0 { fb.put_pixel(x as u32, y as u32, rgba) }`. -/
def plot (fb : Framebuffer) (x y : Int32) (rgba : Rgba) : Checked Framebuffer :=
  if 0 ≤ x ∧ 0 ≤ y then fb.putPixel x.toUInt32 y.toUInt32 rgba else pure fb

def fillRect (fb : Framebuffer) (x y : Int32) (w h : UInt32) (rgba : Rgba) : Checked Framebuffer :=
  let b := clip x y w h fb.width fb.height
  fb.fillRect b.x b.y b.w b.h rgba

def strokeRect (fb : Framebuffer) (x y : Int32) (w h : UInt32) (rgba : Rgba) :
    Checked Framebuffer :=
  let b := clip x y w h fb.width fb.height
  fb.strokeRect b.x b.y b.w b.h rgba

end Canvas

/-- What `plot` sets: its pixel, if that is on the screen. -/
theorem drawn_plot {fb : Framebuffer} (hfb : fb.WellFormed) (x y : Int32) (rgba : Rgba)
    (hfits : ∀ p : ℕ × ℕ, (fb.raster hfb.rows).Visible p → (p.1 : ℤ) = x.toInt →
      (p.2 : ℤ) = y.toInt → p.2 * fb.stride.toNat + 4 * p.1 < 2 ^ 32) :
    Returns (Canvas.plot fb x y rgba) (fb.Drawn hfb.rows
      (.area (fun p => (p.1 : ℤ) = x.toInt ∧ (p.2 : ℤ) = y.toInt) (fb.encodeRgba rgba))) := by
  have hzero : (0 : Int32).toInt = 0 := rfl
  unfold Canvas.plot
  split
  case isTrue hon =>
    have hx := toNat_toUInt32 hon.1
    have hy := toNat_toUInt32 hon.2
    have hput := drawn_putPixel hfb (x := x.toUInt32) (y := y.toUInt32) rgba
      fun hp => hfits _ hp hx hy
    refine hput.mono fun out hout => hout.congr fun p _ => Picture.area_congr ?_
    rw [Prod.ext_iff]
    dsimp only
    omega
  case isFalse hoff =>
    rw [Int32.le_iff_toInt_le, Int32.le_iff_toInt_le, hzero] at hoff
    refine returns_pure ((drawn_none hfb.rows).congr fun p _ => ?_)
    exact (if_neg fun hat => hoff (by omega)).symm

/-! ## What `clip` returns -/

/-- `(w as i32 + x.min(0)).max(0) as u32`. -/
theorem toNat_extent (x : Int32) (w : UInt32) :
    ((max (w.toInt32 + min x 0) 0).toUInt32.toNat : ℤ) =
      if w.toNat + min x.toInt 0 < 2 ^ 31 then max (w.toNat + min x.toInt 0) 0 else 0 := by
  have hzero : (0 : Int32).toInt = 0 := rfl
  have hlow := x.le_toInt
  have hw := w.toNat_lt
  rw [toNat_max_zero, Int32.toInt_add, toInt_toInt32, Int.bmod_add_bmod, toInt_min, hzero, Int.bmod]
  split
  · split
    · omega
    · omega
  · split
    · omega
    · omega

/-- One axis of what is left of a rectangle that starts on the screen or before it. -/
theorem clip_axis {x : Int32} {w sw : UInt32} (hstart : ¬sw ≤ (max x 0).toUInt32) {q : ℕ} :
    ((max x 0).toUInt32.toNat ≤ q ∧ q < (max x 0).toUInt32.toNat +
        (min (max (w.toInt32 + min x 0) 0).toUInt32 (sw - (max x 0).toUInt32)).toNat) ↔
      q < sw.toNat ∧ x.toInt ≤ q ∧ (q : ℤ) < x.toInt + w.toNat ∧
        w.toNat + min x.toInt 0 < 2 ^ 31 := by
  have hx := toNat_max_zero x
  have hextent := toNat_extent x w
  rw [UInt32.not_le] at hstart
  rw [toNat_min, UInt32.toNat_sub_of_le _ _ (UInt32.le_of_lt hstart)]
  have hlt := UInt32.lt_iff_toNat_lt.mp hstart
  split at hextent
  case isTrue hfits =>
    constructor
    · rintro ⟨hleft, hright⟩
      exact ⟨by omega, by omega, by omega, hfits⟩
    · rintro ⟨hq, hleft, hright, _⟩
      omega
  case isFalse hwide =>
    constructor
    · rintro ⟨hleft, hright⟩
      omega
    · rintro ⟨_, _, _, hfits⟩
      exact absurd hfits hwide

/-- The rectangle, with sums that do not wrap. -/
def InSigned (x y : ℤ) (w h : ℕ) (p : ℕ × ℕ) : Prop :=
  x ≤ p.1 ∧ (p.1 : ℤ) < x + w ∧ y ≤ p.2 ∧ (p.2 : ℤ) < y + h

instance (x y : ℤ) (w h : ℕ) : DecidablePred (InSigned x y w h) :=
  fun _ => inferInstanceAs (Decidable (_ ∧ _ ∧ _ ∧ _))

/-- What is left of both extents fits in `i32`, or nothing of the rectangle is on the screen. -/
def ClipFits (sw sh : ℕ) (x y : ℤ) (w h : ℕ) : Prop :=
  (w + min x 0 < 2 ^ 31 ∧ h + min y 0 < 2 ^ 31) ∨
    sw ≤ max x 0 ∨ sh ≤ max y 0 ∨ w + min x 0 ≤ 0 ∨ h + min y 0 ≤ 0

section Clip

variable {x y : Int32} {w h sw sh : UInt32}

/-- The pixels of a box. -/
def InBox (b : Box) (p : ℕ × ℕ) : Prop := InRect b.x.toNat b.y.toNat b.w.toNat b.h.toNat p

instance (b : Box) : DecidablePred (InBox b) :=
  fun _ => inferInstanceAs (Decidable (InRect _ _ _ _ _))

theorem clip_of_off (hskip : sw ≤ (max x 0).toUInt32 ∨ sh ≤ (max y 0).toUInt32) :
    clip x y w h sw sh = ⟨0, 0, 0, 0⟩ :=
  if_pos hskip

theorem clip_of_on (hstart : ¬(sw ≤ (max x 0).toUInt32 ∨ sh ≤ (max y 0).toUInt32)) :
    clip x y w h sw sh =
      ⟨(max x 0).toUInt32, (max y 0).toUInt32,
        min (max (w.toInt32 + min x 0) 0).toUInt32 (sw - (max x 0).toUInt32),
        min (max (h.toInt32 + min y 0) 0).toUInt32 (sh - (max y 0).toUInt32)⟩ :=
  if_neg hstart

theorem inBox_clip_iff (x y : Int32) (w h sw sh : UInt32) (p : ℕ × ℕ) :
    InBox (clip x y w h sw sh) p ↔
      (p.1 < sw.toNat ∧ p.2 < sh.toNat ∧ InSigned x.toInt y.toInt w.toNat h.toNat p) ∧
        w.toNat + min x.toInt 0 < 2 ^ 31 ∧ h.toNat + min y.toInt 0 < 2 ^ 31 := by
  unfold InBox InRect InSigned
  by_cases hskip : sw ≤ (max x 0).toUInt32 ∨ sh ≤ (max y 0).toUInt32
  · have hx := toNat_max_zero x
    have hy := toNat_max_zero y
    rw [clip_of_off hskip]
    rw [UInt32.le_iff_toNat_le, UInt32.le_iff_toNat_le] at hskip
    constructor
    · rintro ⟨_, hempty, _, _⟩
      exact absurd hempty (Nat.not_lt_zero _)
    · rintro ⟨⟨hpx, hpy, hleft, _, htop, _⟩, _, _⟩
      omega
  · have hcolumns := clip_axis (x := x) (w := w) (not_or.mp hskip).1 (q := p.1)
    have hrows := clip_axis (x := y) (w := h) (not_or.mp hskip).2 (q := p.2)
    rw [clip_of_on hskip, ← and_assoc, hcolumns, hrows]
    constructor
    · rintro ⟨⟨hx, hleft, hright, hw⟩, hy, htop, hbottom, hh⟩
      exact ⟨⟨hx, hy, hleft, hright, htop, hbottom⟩, hw, hh⟩
    · rintro ⟨⟨hx, hy, hleft, hright, htop, hbottom⟩, hw, hh⟩
      exact ⟨⟨hx, hleft, hright, hw⟩, hy, htop, hbottom, hh⟩

/-- What `clip` returns lies inside the screen. -/
theorem clip_inside (x y : Int32) (w h sw sh : UInt32) :
    (clip x y w h sw sh).x.toNat + (clip x y w h sw sh).w.toNat ≤ sw.toNat ∧
      (clip x y w h sw sh).y.toNat + (clip x y w h sw sh).h.toNat ≤ sh.toNat := by
  by_cases hskip : sw ≤ (max x 0).toUInt32 ∨ sh ≤ (max y 0).toUInt32
  · rw [clip_of_off hskip]
    exact ⟨Nat.zero_le _, Nat.zero_le _⟩
  · rw [clip_of_on hskip]
    rw [not_or, UInt32.not_le, UInt32.not_le] at hskip
    have hw := UInt32.lt_iff_toNat_lt.mp hskip.1
    have hh := UInt32.lt_iff_toNat_lt.mp hskip.2
    dsimp only
    rw [toNat_min, toNat_min, UInt32.toNat_sub_of_le _ _ (UInt32.le_of_lt hskip.1),
      UInt32.toNat_sub_of_le _ _ (UInt32.le_of_lt hskip.2)]
    omega

theorem fillExact_clip (x y : Int32) (w h sw sh : UInt32) :
    FillExact sw.toNat sh.toNat (clip x y w h sw sh).x.toNat (clip x y w h sw sh).y.toNat
      (clip x y w h sw sh).w.toNat (clip x y w h sw sh).h.toNat := by
  have hinside := clip_inside x y w h sw sh
  have hsw := sw.toNat_lt
  have hsh := sh.toNat_lt
  exact .inr (.inr (.inl (by omega)))

theorem strokeExact_clip (x y : Int32) (w h sw sh : UInt32) :
    StrokeExact sw.toNat sh.toNat (clip x y w h sw sh).x.toNat (clip x y w h sw sh).y.toNat
      (clip x y w h sw sh).w.toNat (clip x y w h sw sh).h.toNat := by
  have hinside := clip_inside x y w h sw sh
  have hsh := sh.toNat_lt
  exact .inr (.inr (.inl (by omega)))

end Clip

/-! ## `Canvas::fill_rect` -/

section Canvas

variable {width height stride : UInt32} {hrows : 4 * width.toNat ≤ stride.toNat}

/-- `Canvas::fill_rect` is exact for what `clip` returns. -/
theorem fillRect_exact_clip (x y : Int32) (w h : UInt32) :
    Exact width height stride hrows (fun fb rgba => Canvas.fillRect fb x y w h rgba)
      (InBox (clip x y w h width height)) := by
  intro fb hfb rgba
  obtain ⟨rfl, rfl, rfl, _⟩ := id hfb
  have hfill : Exact fb.width fb.height fb.stride hrows _ _ :=
    fillRect_exact (fillExact_clip x y w h fb.width fb.height)
  exact hfill fb hfb rgba

/-- The first pixel of a rectangle that is on the screen at all. -/
theorem exists_inSigned {sw sh w h : ℕ} {x y : ℤ} (hx : ¬sw ≤ max x 0) (hy : ¬sh ≤ max y 0)
    (hw : ¬w + min x 0 ≤ 0) (hh : ¬h + min y 0 ≤ 0) :
    ∃ p : ℕ × ℕ, p.1 < sw ∧ p.2 < sh ∧ InSigned x y w h p := by
  refine ⟨((max x 0).toNat, (max y 0).toNat), ?_⟩
  unfold InSigned
  dsimp only
  omega

/-- `clip` returns the part of the rectangle that is on the screen, and `Canvas::fill_rect` sets
exactly its pixels, as long as what is left of both extents fits in `i32` or nothing is left of
the rectangle. -/
theorem clip_fillRect_exact_iff (hrows : 4 * width.toNat ≤ stride.toNat) (x y : Int32)
    (w h : UInt32) :
    ((∀ p : ℕ × ℕ, InBox (clip x y w h width height) p ↔
        p.1 < width.toNat ∧ p.2 < height.toNat ∧ InSigned x.toInt y.toInt w.toNat h.toNat p) ↔
      ClipFits width.toNat height.toNat x.toInt y.toInt w.toNat h.toNat) ∧
    (Exact width height stride hrows (fun fb rgba => Canvas.fillRect fb x y w h rgba)
        (InSigned x.toInt y.toInt w.toNat h.toNat) ↔
      ClipFits width.toNat height.toNat x.toInt y.toInt w.toNat h.toNat) := by
  -- a pixel that is there and that `clip` keeps shows that the extents fit
  have hfits : (∀ p : ℕ × ℕ, p.1 < width.toNat → p.2 < height.toNat →
      InSigned x.toInt y.toInt w.toNat h.toNat p → InBox (clip x y w h width height) p) →
      ClipFits width.toNat height.toNat x.toInt y.toInt w.toNat h.toNat := by
    intro hkept
    by_contra hnot
    unfold ClipFits at hnot
    push Not at hnot
    obtain ⟨p, hpx, hpy, hp⟩ := exists_inSigned (not_le.mpr hnot.2.1) (not_le.mpr hnot.2.2.1)
      (not_le.mpr hnot.2.2.2.1) (not_le.mpr hnot.2.2.2.2)
    have hext := ((inBox_clip_iff x y w h width height p).mp (hkept p hpx hpy hp)).2
    exact absurd (hnot.1 hext.1) (not_le.mpr hext.2)
  have hclip : ClipFits width.toNat height.toNat x.toInt y.toInt w.toNat h.toNat →
      ∀ p : ℕ × ℕ, InBox (clip x y w h width height) p ↔
        p.1 < width.toNat ∧ p.2 < height.toNat ∧ InSigned x.toInt y.toInt w.toNat h.toNat p := by
    intro hfits p
    rw [inBox_clip_iff]
    refine ⟨fun hbox => hbox.1, fun hon => ⟨hon, ?_⟩⟩
    obtain ⟨hpx, hpy, hleft, hright, htop, hbottom⟩ := hon
    rcases hfits with hextents | hoff
    · exact hextents
    · omega
  refine ⟨⟨fun hall => hfits fun p hpx hpy hp => (hall p).mpr ⟨hpx, hpy, hp⟩, hclip⟩, ?_, ?_⟩
  · intro hexact
    exact hfits fun p hpx hpy hp => hexact.unique (fillRect_exact_clip x y w h) hpx hpy hp
  · intro hfit
    refine (fillRect_exact_clip x y w h).congr fun p hpx hpy => (hclip hfit p).trans ?_
    exact ⟨fun hin => hin.2.2, fun hin => ⟨hpx, hpy, hin⟩⟩

/-- A rectangle over the left and the upper edge of a screen. -/
theorem clip_fillRect_exact_iff_overCorner :
    Exact 3 2 16 (by decide) (fun fb rgba => Canvas.fillRect fb (-1) (-2) 3 4 rgba)
      (InSigned (-1) (-2) 3 4) :=
  (@clip_fillRect_exact_iff 3 2 16 (by decide) (-1) (-2) 3 4).2.mpr
    (.inl ⟨by decide, by decide⟩)

/-- A rectangle as wide as `u32` allows is not drawn. -/
theorem fillRect_wide :
    InSigned 0 0 0xffffffff 1 (0, 0) ∧
      Canvas.fillRect (blank 1 1 4) 0 0 0xffffffff 1 marker = .ok (blank 1 1 4) := by
  decide +kernel

end Canvas

/-! ## `Canvas::stroke_rect` -/

/-- The outline of the rectangle. -/
def OnSignedOutline (x y : ℤ) (w h : ℕ) (p : ℕ × ℕ) : Prop :=
  InSigned x y w h p ∧
    ((p.1 : ℤ) = x ∨ (p.1 : ℤ) + 1 = x + w ∨ (p.2 : ℤ) = y ∨ (p.2 : ℤ) + 1 = y + h)

instance (x y : ℤ) (w h : ℕ) : DecidablePred (OnSignedOutline x y w h) :=
  fun _ => inferInstanceAs (Decidable (_ ∧ (_ ∨ _ ∨ _ ∨ _)))

/-- Along one axis, the rectangle leaves the screen on no side, or only one line of it is left
there, which is the edge on the other side. -/
def EdgesKept (bound : ℕ) (start : ℤ) (extent : ℕ) : Prop :=
  (0 ≤ start ∨ start + extent = 1) ∧ (start + extent ≤ bound ∨ start + 1 = bound)

/-- Along one axis, every line of the rectangle that is on the screen is an edge. -/
def OnlyEdges (bound : ℕ) (start : ℤ) (extent : ℕ) : Prop :=
  extent ≤ 2 ∨ start + 1 = bound ∨ start + extent = 1

/-- Nothing of the rectangle is on the screen, or every line that `stroke_rect` draws along a
border of the screen lies on the outline. -/
def OutlineKept (sw sh : ℕ) (x y : ℤ) (w h : ℕ) : Prop :=
  (sw ≤ max x 0 ∨ sh ≤ max y 0 ∨ w + min x 0 ≤ 0 ∨ h + min y 0 ≤ 0) ∨
    ((EdgesKept sw x w ∨ OnlyEdges sh y h) ∧ (EdgesKept sh y h ∨ OnlyEdges sw x w))

section Stroke

variable {width height stride : UInt32} {hrows : 4 * width.toNat ≤ stride.toNat}
  {x y : Int32} {w h sw sh : UInt32} {p : ℕ × ℕ}

/-- One axis of what is left of a rectangle, by its ends. -/
theorem clip_ends (hstart : ¬sw ≤ (max x 0).toUInt32) (hw : w.toNat < 2 ^ 31) :
    ((max x 0).toUInt32.toNat : ℤ) = max x.toInt 0 ∧
      ((max x 0).toUInt32.toNat : ℤ) +
          (min (max (w.toInt32 + min x 0) 0).toUInt32 (sw - (max x 0).toUInt32)).toNat =
        max (min (x.toInt + w.toNat) sw.toNat) (max x.toInt 0) := by
  have hx := toNat_max_zero x
  have hextent := toNat_extent x w
  rw [if_pos (by omega)] at hextent
  rw [UInt32.not_le] at hstart
  rw [toNat_min, UInt32.toNat_sub_of_le _ _ (UInt32.le_of_lt hstart)]
  have hlt := UInt32.lt_iff_toNat_lt.mp hstart
  omega

/-- The first and the last line of what is left of a rectangle, among its lines on the screen. -/
theorem clip_lines (hstart : ¬sw ≤ (max x 0).toUInt32) (hw : w.toNat < 2 ^ 31) {q : ℕ}
    (hq : q < sw.toNat) (hleft : x.toInt ≤ q) (hright : (q : ℤ) < x.toInt + w.toNat) :
    (q = (max x 0).toUInt32.toNat ↔ (q : ℤ) = max x.toInt 0) ∧
      (q + 1 = (max x 0).toUInt32.toNat +
          (min (max (w.toInt32 + min x 0) 0).toUInt32 (sw - (max x 0).toUInt32)).toNat ↔
        (q : ℤ) + 1 = min (x.toInt + w.toNat) sw.toNat) := by
  obtain ⟨hfirst, hlast⟩ := clip_ends hstart hw
  have hinside : max x.toInt 0 ≤ min (x.toInt + w.toNat) sw.toNat := by omega
  rw [max_eq_left hinside] at hlast
  rw [← hfirst, ← hlast]
  omega

/-- The pixels that `stroke_rect` sets: the outline of the part of the rectangle that is on the
screen. -/
theorem onOutline_clip_iff (hw : w.toNat < 2 ^ 31) (hh : h.toNat < 2 ^ 31)
    (hpx : p.1 < sw.toNat) (hpy : p.2 < sh.toNat) :
    OnOutline (clip x y w h sw sh).x.toNat (clip x y w h sw sh).y.toNat
        (clip x y w h sw sh).w.toNat (clip x y w h sw sh).h.toNat p ↔
      InSigned x.toInt y.toInt w.toNat h.toNat p ∧
        ((p.1 : ℤ) = max x.toInt 0 ∨ (p.1 : ℤ) + 1 = min (x.toInt + w.toNat) sw.toNat ∨
          (p.2 : ℤ) = max y.toInt 0 ∨ (p.2 : ℤ) + 1 = min (y.toInt + h.toNat) sh.toNat) := by
  -- the box itself is the rectangle on the screen, and a pixel of it is on a line of the box
  -- exactly if it is on that end of an axis
  have hin : InBox (clip x y w h sw sh) p ↔ InSigned x.toInt y.toInt w.toNat h.toNat p := by
    rw [inBox_clip_iff]
    constructor
    · exact fun hbox => hbox.1.2.2
    · exact fun hsigned => ⟨⟨hpx, hpy, hsigned⟩, by omega, by omega⟩
  have hbox : OnOutline (clip x y w h sw sh).x.toNat (clip x y w h sw sh).y.toNat
      (clip x y w h sw sh).w.toNat (clip x y w h sw sh).h.toNat p ↔
        InBox (clip x y w h sw sh) p ∧ _ := Iff.rfl
  rw [hbox, hin]
  refine and_congr_right fun hsigned => ?_
  obtain ⟨hleft, hright, htop, hbottom⟩ := id hsigned
  by_cases hskip : sw ≤ (max x 0).toUInt32 ∨ sh ≤ (max y 0).toUInt32
  · have hx := toNat_max_zero x
    have hy := toNat_max_zero y
    rw [UInt32.le_iff_toNat_le, UInt32.le_iff_toNat_le] at hskip
    exfalso
    omega
  · obtain ⟨hfirst, hlast⟩ := clip_lines (not_or.mp hskip).1 hw hpx hleft hright
    obtain ⟨hfirst', hlast'⟩ := clip_lines (not_or.mp hskip).2 hh hpy htop hbottom
    rw [clip_of_on hskip]
    exact or_congr hfirst (or_congr hlast (or_congr hfirst' hlast'))

theorem strokeRect_exact_clip (x y : Int32) (w h : UInt32) :
    Exact width height stride hrows (fun fb rgba => Canvas.strokeRect fb x y w h rgba)
      (OnOutline (clip x y w h width height).x.toNat (clip x y w h width height).y.toNat
        (clip x y w h width height).w.toNat (clip x y w h width height).h.toNat) := by
  intro fb hfb rgba
  obtain ⟨rfl, rfl, rfl, _⟩ := id hfb
  have hstroke : Exact fb.width fb.height fb.stride hrows _ _ :=
    strokeRect_exact (strokeExact_clip x y w h fb.width fb.height)
  exact hstroke fb hfb rgba

/-- A line of the rectangle that is on the screen and no edge. -/
theorem exists_inner {bound extent : ℕ} {start : ℤ} (hleft : ¬extent + min start 0 ≤ 0)
    (hright : ¬bound ≤ max start 0) (hedges : ¬OnlyEdges bound start extent) :
    ∃ q : ℕ, q < bound ∧ start < q ∧ (q : ℤ) + 1 < start + extent := by
  unfold OnlyEdges at hedges
  refine ⟨(max (start + 1) 0).toNat, ?_⟩
  omega

/-- A line along a border of the screen that is in the rectangle and no edge of it. -/
theorem exists_border {bound extent : ℕ} {start : ℤ} (hleft : ¬extent + min start 0 ≤ 0)
    (hright : ¬bound ≤ max start 0) (hkept : ¬EdgesKept bound start extent) :
    ∃ q : ℕ, q < bound ∧ start < q ∧ (q : ℤ) + 1 < start + extent ∧
      ((q : ℤ) = max start 0 ∨ (q : ℤ) + 1 = min (start + extent) bound) := by
  unfold EdgesKept at hkept
  by_cases hfirst : 0 ≤ start ∨ start + extent = 1
  · refine ⟨bound - 1, ?_⟩
    omega
  · refine ⟨0, ?_⟩
    omega

/-- `Canvas::stroke_rect` sets exactly the visible pixels of the outline, as long as the lines it
draws along the borders of the screen lie on the outline. -/
theorem canvas_strokeRect_exact_iff (hrows : 4 * width.toNat ≤ stride.toNat) (x y : Int32)
    (hw : w.toNat < 2 ^ 31) (hh : h.toNat < 2 ^ 31) :
    Exact width height stride hrows (fun fb rgba => Canvas.strokeRect fb x y w h rgba)
        (OnSignedOutline x.toInt y.toInt w.toNat h.toNat) ↔
      OutlineKept width.toNat height.toNat x.toInt y.toInt w.toNat h.toNat := by
  have hclip : Exact width height stride hrows _ _ := strokeRect_exact_clip x y w h
  constructor
  · intro hexact
    -- what is drawn is on the outline
    have hdrawn : ∀ p : ℕ × ℕ, p.1 < width.toNat → p.2 < height.toNat →
        InSigned x.toInt y.toInt w.toNat h.toNat p →
        ((p.1 : ℤ) = max x.toInt 0 ∨ (p.1 : ℤ) + 1 = min (x.toInt + w.toNat) width.toNat ∨
          (p.2 : ℤ) = max y.toInt 0 ∨ (p.2 : ℤ) + 1 = min (y.toInt + h.toNat) height.toNat) →
        OnSignedOutline x.toInt y.toInt w.toNat h.toNat p := by
      intro p hpx hpy hin hedge
      exact hclip.unique hexact hpx hpy ((onOutline_clip_iff hw hh hpx hpy).mpr ⟨hin, hedge⟩)
    unfold OutlineKept
    by_contra hnot
    push Not at hnot
    obtain ⟨⟨hx, hy, hxw, hyh⟩, hkept⟩ := hnot
    have hlost : (¬EdgesKept width.toNat x.toInt w.toNat ∧
        ¬OnlyEdges height.toNat y.toInt h.toNat) ∨
        ¬EdgesKept height.toNat y.toInt h.toNat ∧ ¬OnlyEdges width.toNat x.toInt w.toNat := by
      tauto
    rcases hlost with ⟨hborder, hinner⟩ | ⟨hborder, hinner⟩
    · obtain ⟨c, hc, hcx, hcw, hedge⟩ := exists_border (not_le.mpr hxw) (not_le.mpr hx) hborder
      obtain ⟨r, hr, hry, hrh⟩ := exists_inner (not_le.mpr hyh) (not_le.mpr hy) hinner
      have hon := hdrawn (c, r) hc hr (by unfold InSigned; omega) (by omega)
      unfold OnSignedOutline at hon
      omega
    · obtain ⟨r, hr, hry, hrh, hedge⟩ := exists_border (not_le.mpr hyh) (not_le.mpr hy) hborder
      obtain ⟨c, hc, hcx, hcw⟩ := exists_inner (not_le.mpr hxw) (not_le.mpr hx) hinner
      have hon := hdrawn (c, r) hc hr (by unfold InSigned; omega) (by omega)
      unfold OnSignedOutline at hon
      omega
  · intro hkept
    refine hclip.congr fun p hpx hpy => ?_
    rw [onOutline_clip_iff hw hh hpx hpy]
    unfold OutlineKept EdgesKept OnlyEdges at hkept
    unfold OnSignedOutline InSigned
    constructor
    · rintro ⟨hin, hedge⟩
      refine ⟨hin, ?_⟩
      rcases hedge with hleft | hright | htop | hbottom
      · omega
      · omega
      · omega
      · omega
    · rintro ⟨hin, hedge⟩
      refine ⟨hin, ?_⟩
      omega

/-- A rectangle of two columns over the upper edge of a screen. -/
theorem canvas_strokeRect_exact_iff_overTop :
    Exact 3 2 16 (by decide) (fun fb rgba => Canvas.strokeRect fb 1 (-2) 2 4 rgba)
      (OnSignedOutline 1 (-2) 2 4) :=
  (@canvas_strokeRect_exact_iff 3 2 16 2 4 (by decide) 1 (-2) (by decide) (by decide)).mpr
    (.inr ⟨.inl ⟨by decide, by decide⟩, .inr (.inl (by decide))⟩)

/-- A rectangle over the left edge of a screen of three columns and rows: the pixel in the middle
of the first column is no pixel of the outline, and it is set. -/
theorem strokeRect_overLeftEdge :
    ¬OnSignedOutline (-1) 0 3 3 (0, 1) ∧ (blank 3 3 12).pixelAt (0, 1) = [0, 0, 0, 0] ∧
      (Canvas.strokeRect (blank 3 3 12) (-1) 0 3 3 marker).map (·.pixelAt (0, 1)) =
        .ok [1, 1, 1, 1] := by
  decide +kernel

end Stroke

end Hyperion.Ui
