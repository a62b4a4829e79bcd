import Hyperion.Lib.DigitalLine
import Hyperion.Ui.Canvas

/-!
# Lines

`Canvas::line` of `ui/canvas.rs`, with the arithmetic of the release build.

The loop leaves only at the end point.  While no side has `2^29` pixels or more, no operation of
the loop leaves `i32`, its variables are the points of the digital line and the error of the
algorithm (`LineState.after`), and it plots these points, one in each turn (`line_eq_foldlM`).

`put_pixel` computes the offset of a pixel in `u32`.  On a screen of `2^32` bytes and more, a
pixel whose offset is not below `2^32` is not painted, and another one is
(`line_exact_iff`).
-/

namespace Hyperion.Ui

open Hyperion.Lib Hyperion.Lib.DigitalLine Hyperion.Display

namespace Canvas

/-- The variables of the loop. -/
structure LineState where
  x0 : Int32
  y0 : Int32
  err : Int32
  fb : Framebuffer
  deriving DecidableEq, Repr

def lineTurn (x1 y1 dx dy sx sy : Int32) (rgba : Rgba) (s : LineState) :
    Checked (Turn LineState Framebuffer) := do
  let fb ← plot s.fb s.x0 s.y0 rgba
  if s.x0 = x1 ∧ s.y0 = y1 then pure (.leave fb)
  else
    let e2 := 2 * s.err
    let err := if dy ≤ e2 then s.err + dy else s.err
    let x0 := if dy ≤ e2 then s.x0 + sx else s.x0
    let err := if e2 ≤ dx then err + dx else err
    let y0 := if e2 ≤ dx then s.y0 + sy else s.y0
    pure (.again ⟨x0, y0, err, fb⟩)

def line (fuel : ℕ) (fb : Framebuffer) (x0 y0 x1 y1 : Int32) (rgba : Rgba) : Checked Framebuffer :=
  let dx := (x1 - x0).abs
  let dy := -(y1 - y0).abs
  let sx := if x0 < x1 then 1 else -1
  let sy := if y0 < y1 then 1 else -1
  loop (lineTurn x1 y1 dx dy sx sy rgba) fuel ⟨x0, y0, dx + dy, fb⟩

end Canvas

/-! ## The sides in `i32` -/

section Side

variable {s t : Int32}

theorem abs_sub_eq_ofInt (hnear : (t.toInt - s.toInt).natAbs < 2 ^ 29) :
    (t - s).abs = Int32.ofInt (t.toInt - s.toInt).natAbs := by
  have hsub : (t - s).toInt = t.toInt - s.toInt := by
    rw [Int32.toInt_sub, Int.bmod_eq_of_le (by omega) (by omega)]
  have hne : (t - s).toBitVec ≠ BitVec.intMin 32 := by
    intro heq
    have hmin : (t - s).toInt = (BitVec.intMin 32).toInt := congrArg BitVec.toInt heq
    rw [hsub, show (BitVec.intMin 32).toInt = -2 ^ 31 from by decide] at hmin
    omega
  apply Int32.toInt.inj
  rw [Int32.toInt_ofInt_of_le (by omega) (by omega), ← hsub]
  exact BitVec.toInt_abs_eq_natAbs_of_ne_intMin hne

/-- The direction of a side that is gone along. -/
theorem direction_eq_ofInt (hne : t.toInt ≠ s.toInt) :
    (if s < t then (1 : Int32) else -1) = Int32.ofInt (t.toInt - s.toInt).sign := by
  split
  case isTrue hlt =>
    rw [Int32.lt_iff_toInt_lt] at hlt
    rw [Int.sign_eq_one_of_pos (by omega)]
    rfl
  case isFalse hge =>
    rw [Int32.lt_iff_toInt_lt] at hge
    rw [Int.sign_eq_neg_one_of_neg (by omega)]
    rfl

/-- The coordinates between two `i32` are `i32`. -/
theorem toInt_ofInt_along {n i : ℕ} (hi : i ≤ n) (hm : (t.toInt - s.toInt).natAbs ≤ n) :
    (Int32.ofInt (along s.toInt t.toInt n i)).toInt = along s.toInt t.toInt n i := by
  have hs := s.le_toInt
  have hs' := s.toInt_lt
  have ht := t.le_toInt
  have ht' := t.toInt_lt
  have hbetween := along_between hi hm
  exact Int32.toInt_ofInt_of_le (by omega) (by omega)

/-- One coordinate after a turn: the loop goes on along a side exactly when the digital line
does. -/
theorem ofInt_along_succ {n i : ℕ} {go : Prop} [Decidable go]
    (hgo : rounded (i + 1) (t.toInt - s.toInt).natAbs n =
      rounded i (t.toInt - s.toInt).natAbs n + if go then 1 else 0) :
    (if go then Int32.ofInt (along s.toInt t.toInt n i) + (if s < t then 1 else -1)
      else Int32.ofInt (along s.toInt t.toInt n i)) =
      Int32.ofInt (along s.toInt t.toInt n (i + 1)) := by
  rw [along_succ]
  split
  case isTrue hgoes =>
    rw [if_pos hgoes] at hgo
    -- a side of length zero is not gone along
    have hne : t.toInt ≠ s.toInt := by
      intro heq
      rw [heq, sub_self, Int.natAbs_zero, rounded_flat, rounded_flat] at hgo
      cases hgo
    rw [hgo, Nat.cast_succ, add_sub_cancel_left, mul_one, Int32.ofInt_add, direction_eq_ofInt hne]
  case isFalse hstays =>
    simp only [if_neg hstays, add_zero] at hgo
    rw [hgo, sub_self, mul_zero, add_zero]

end Side

/-! ## The turns of the loop -/

section Turns

variable {x0 y0 x1 y1 : Int32}

/-- `max(|x1 - x0|, |y1 - y0|)`. -/
def lineSteps (x0 y0 x1 y1 : Int32) : ℕ := steps (x0.toInt, y0.toInt) (x1.toInt, y1.toInt)

/-- The point of the digital line after `i` steps. -/
def linePoint (x0 y0 x1 y1 : Int32) (i : ℕ) : ℤ × ℤ :=
  point (x0.toInt, y0.toInt) (x1.toInt, y1.toInt) i

/-- The error of the algorithm after `i` steps. -/
def lineError (x0 y0 x1 y1 : Int32) (i : ℕ) : ℤ :=
  error (x1.toInt - x0.toInt).natAbs (y1.toInt - y0.toInt).natAbs i

/-- The variables of the loop after `i` turns. -/
def Canvas.LineState.after (x0 y0 x1 y1 : Int32) (i : ℕ) (fb : Framebuffer) : LineState :=
  { x0 := Int32.ofInt (linePoint x0 y0 x1 y1 i).1
    y0 := Int32.ofInt (linePoint x0 y0 x1 y1 i).2
    err := Int32.ofInt (lineError x0 y0 x1 y1 i)
    fb }

/-- Plotting a point of the plane. -/
def plotAt (rgba : Rgba) (fb : Framebuffer) (p : ℤ × ℤ) : Checked Framebuffer :=
  Canvas.plot fb (Int32.ofInt p.1) (Int32.ofInt p.2) rgba

/-- No operation of the loop leaves `i32`. -/
def Near (x0 y0 x1 y1 : Int32) : Prop :=
  (x1.toInt - x0.toInt).natAbs < 2 ^ 29 ∧ (y1.toInt - y0.toInt).natAbs < 2 ^ 29

theorem first_le (x0 y0 x1 y1 : Int32) :
    (x1.toInt - x0.toInt).natAbs ≤ lineSteps x0 y0 x1 y1 :=
  natAbs_first_le (x0.toInt, y0.toInt) (x1.toInt, y1.toInt)

theorem second_le (x0 y0 x1 y1 : Int32) :
    (y1.toInt - y0.toInt).natAbs ≤ lineSteps x0 y0 x1 y1 :=
  natAbs_second_le (x0.toInt, y0.toInt) (x1.toInt, y1.toInt)

theorem toInt_linePoint {i : ℕ} (hi : i ≤ lineSteps x0 y0 x1 y1) :
    (Int32.ofInt (linePoint x0 y0 x1 y1 i).1).toInt = (linePoint x0 y0 x1 y1 i).1 ∧
      (Int32.ofInt (linePoint x0 y0 x1 y1 i).2).toInt = (linePoint x0 y0 x1 y1 i).2 :=
  ⟨toInt_ofInt_along hi (first_le x0 y0 x1 y1), toInt_ofInt_along hi (second_le x0 y0 x1 y1)⟩

/-- The two tests of a turn. -/
theorem tests_iff (hnear : Near x0 y0 x1 y1) {i : ℕ} (hi : i < lineSteps x0 y0 x1 y1) :
    (-(y1 - y0).abs ≤ 2 * Int32.ofInt (lineError x0 y0 x1 y1 i) ↔
        -((y1.toInt - y0.toInt).natAbs : ℤ) ≤ 2 * lineError x0 y0 x1 y1 i) ∧
      (2 * Int32.ofInt (lineError x0 y0 x1 y1 i) ≤ (x1 - x0).abs ↔
        2 * lineError x0 y0 x1 y1 i ≤ (x1.toInt - x0.toInt).natAbs) := by
  have hpos : 0 < max (x1.toInt - x0.toInt).natAbs (y1.toInt - y0.toInt).natAbs :=
    Nat.zero_lt_of_lt hi
  have hbounds : _ ∧ 2 * lineError x0 y0 x1 y1 i ≤ _ := abs_two_mul_error_le hpos i
  have hlow : -(3 * (max (x1.toInt - x0.toInt).natAbs (y1.toInt - y0.toInt).natAbs : ℤ)) ≤
    2 * lineError x0 y0 x1 y1 i := hbounds.1
  obtain ⟨hx, hy⟩ := hnear
  have htwice : 2 * Int32.ofInt (lineError x0 y0 x1 y1 i) =
      Int32.ofInt (2 * lineError x0 y0 x1 y1 i) := by
    rw [Int32.ofInt_mul]
    rfl
  rw [abs_sub_eq_ofInt hx, abs_sub_eq_ofInt hy, ← Int32.ofInt_neg, htwice, Int32.le_iff_toInt_le,
    Int32.le_iff_toInt_le, Int32.toInt_ofInt_of_le (by omega) (by omega),
    Int32.toInt_ofInt_of_le (by omega) (by omega), Int32.toInt_ofInt_of_le (by omega) (by omega)]
  exact ⟨Iff.rfl, Iff.rfl⟩

/-- The error after a turn. -/
theorem ofInt_error_succ (hnear : Near x0 y0 x1 y1) {i : ℕ} (hi : i < lineSteps x0 y0 x1 y1) :
    (if 2 * lineError x0 y0 x1 y1 i ≤ (x1.toInt - x0.toInt).natAbs then
      (if -((y1.toInt - y0.toInt).natAbs : ℤ) ≤ 2 * lineError x0 y0 x1 y1 i then
        Int32.ofInt (lineError x0 y0 x1 y1 i) + -(y1 - y0).abs
      else Int32.ofInt (lineError x0 y0 x1 y1 i)) + (x1 - x0).abs
    else
      if -((y1.toInt - y0.toInt).natAbs : ℤ) ≤ 2 * lineError x0 y0 x1 y1 i then
        Int32.ofInt (lineError x0 y0 x1 y1 i) + -(y1 - y0).abs
      else Int32.ofInt (lineError x0 y0 x1 y1 i)) =
    Int32.ofInt (lineError x0 y0 x1 y1 (i + 1)) := by
  have hpos : 0 < max (x1.toInt - x0.toInt).natAbs (y1.toInt - y0.toInt).natAbs :=
    Nat.zero_lt_of_lt hi
  have hsucc : lineError x0 y0 x1 y1 (i + 1) = lineError x0 y0 x1 y1 i -
      (if -((y1.toInt - y0.toInt).natAbs : ℤ) ≤ 2 * lineError x0 y0 x1 y1 i then
        ((y1.toInt - y0.toInt).natAbs : ℤ) else 0) +
      if 2 * lineError x0 y0 x1 y1 i ≤ (x1.toInt - x0.toInt).natAbs then
        ((x1.toInt - x0.toInt).natAbs : ℤ) else 0 := error_succ hpos i
  rw [hsucc, abs_sub_eq_ofInt hnear.1, abs_sub_eq_ofInt hnear.2]
  by_cases hfirst : -((y1.toInt - y0.toInt).natAbs : ℤ) ≤ 2 * lineError x0 y0 x1 y1 i
  · by_cases hsecond : 2 * lineError x0 y0 x1 y1 i ≤ (x1.toInt - x0.toInt).natAbs
    · simp only [if_pos hfirst, if_pos hsecond, Int32.ofInt_add, Int32.ofInt_sub,
        Int32.sub_eq_add_neg]
    · simp only [if_pos hfirst, if_neg hsecond, add_zero, Int32.ofInt_sub, Int32.sub_eq_add_neg]
  · by_cases hsecond : 2 * lineError x0 y0 x1 y1 i ≤ (x1.toInt - x0.toInt).natAbs
    · simp only [if_neg hfirst, if_pos hsecond, sub_zero, Int32.ofInt_add]
    · simp only [if_neg hfirst, if_neg hsecond, sub_zero, add_zero]

theorem lineTurn_again (hnear : Near x0 y0 x1 y1) {i : ℕ} (hi : i < lineSteps x0 y0 x1 y1)
    (rgba : Rgba) (fb : Framebuffer) :
    Canvas.lineTurn x1 y1 (x1 - x0).abs (-(y1 - y0).abs) (if x0 < x1 then 1 else -1)
        (if y0 < y1 then 1 else -1) rgba (.after x0 y0 x1 y1 i fb) =
      (do let next ← plotAt rgba fb (linePoint x0 y0 x1 y1 i)
          pure (.again (.after x0 y0 x1 y1 (i + 1) next))) := by
  have hpos : 0 < max (x1.toInt - x0.toInt).natAbs (y1.toInt - y0.toInt).natAbs :=
    Nat.zero_lt_of_lt hi
  obtain ⟨hfirst, hsecond⟩ := tests_iff hnear hi
  have hx : _ = Int32.ofInt (linePoint x0 y0 x1 y1 (i + 1)).1 :=
    ofInt_along_succ (rounded_succ_first hpos i)
  have hy : _ = Int32.ofInt (linePoint x0 y0 x1 y1 (i + 1)).2 :=
    ofInt_along_succ (rounded_succ_second hpos i)
  have hend : ¬(Int32.ofInt (linePoint x0 y0 x1 y1 i).1 = x1 ∧
      Int32.ofInt (linePoint x0 y0 x1 y1 i).2 = y1) := by
    rintro ⟨hx1, hy1⟩
    obtain ⟨hpx, hpy⟩ := toInt_linePoint hi.le
    rw [hx1] at hpx
    rw [hy1] at hpy
    exact point_ne hi (Prod.ext hpx.symm hpy.symm)
  refine congrArg (plotAt rgba fb (linePoint x0 y0 x1 y1 i) >>= ·) (funext fun next => ?_)
  refine (if_neg hend).trans ?_
  simp only [Canvas.LineState.after, hfirst, hsecond]
  rw [← hx, ← hy, ← ofInt_error_succ hnear hi]
  rfl

theorem lineTurn_leave (dx dy sx sy : Int32) (rgba : Rgba) (fb : Framebuffer) :
    Canvas.lineTurn x1 y1 dx dy sx sy rgba
        (.after x0 y0 x1 y1 (lineSteps x0 y0 x1 y1) fb) =
      (do let last ← plotAt rgba fb (linePoint x0 y0 x1 y1 (lineSteps x0 y0 x1 y1))
          pure (.leave last)) := by
  have hx : (linePoint x0 y0 x1 y1 (lineSteps x0 y0 x1 y1)).1 = x1.toInt :=
    along_end (first_le x0 y0 x1 y1)
  have hy : (linePoint x0 y0 x1 y1 (lineSteps x0 y0 x1 y1)).2 = y1.toInt :=
    along_end (second_le x0 y0 x1 y1)
  refine congrArg (plotAt rgba fb _ >>= ·) (funext fun last => if_pos ?_)
  rw [Canvas.LineState.after, hx, hy]
  exact ⟨Int32.ofInt_toInt x1, Int32.ofInt_toInt y1⟩

/-- `line` plots the points of the digital line, one after the other. -/
theorem line_eq_foldlM (hnear : Near x0 y0 x1 y1) {fuel : ℕ} (hfuel : lineSteps x0 y0 x1 y1 < fuel)
    (fb : Framebuffer) (rgba : Rgba) :
    Canvas.line fuel fb x0 y0 x1 y1 rgba = (List.range (lineSteps x0 y0 x1 y1 + 1)).foldlM
      (fun fb i => plotAt rgba fb (linePoint x0 y0 x1 y1 i)) fb := by
  have hstart : (⟨x0, y0, (x1 - x0).abs + -(y1 - y0).abs, fb⟩ : Canvas.LineState) =
      .after x0 y0 x1 y1 0 fb := by
    have hx : (linePoint x0 y0 x1 y1 0).1 = x0.toInt := (travels_along (first_le x0 y0 x1 y1)).start
    have hy : (linePoint x0 y0 x1 y1 0).2 = y0.toInt :=
      (travels_along (second_le x0 y0 x1 y1)).start
    rw [Canvas.LineState.after, hx, hy, Int32.ofInt_toInt, Int32.ofInt_toInt, lineError,
      error_start, abs_sub_eq_ofInt hnear.1, abs_sub_eq_ofInt hnear.2, Int32.ofInt_sub,
      Int32.sub_eq_add_neg]
  rw [Canvas.line, List.range_eq_range', hstart]
  exact loop_eq_foldlM (fun i hi fb => lineTurn_again hnear hi rgba fb)
    (fun fb => lineTurn_leave _ _ _ _ rgba fb) _ 0 (Nat.zero_add _) fuel hfuel fb

end Turns

/-! ## What a line paints -/

/-- A pixel of the digital line. -/
def OnLine (x0 y0 x1 y1 : Int32) (p : ℕ × ℕ) : Prop :=
  ∃ i ∈ List.range (lineSteps x0 y0 x1 y1 + 1), linePoint x0 y0 x1 y1 i = ((p.1 : ℤ), (p.2 : ℤ))

instance (x0 y0 x1 y1 : Int32) : DecidablePred (OnLine x0 y0 x1 y1) :=
  fun _ => inferInstanceAs (Decidable (∃ _ ∈ _, _))

/-- The offsets of the visible pixels of the line fit in `u32`. -/
def OffsetsFit (width height stride : ℕ) (A : ℕ × ℕ → Prop) : Prop :=
  ∀ p : ℕ × ℕ, p.1 < width → p.2 < height → A p → p.2 * stride + 4 * p.1 < 2 ^ 32

section Painting

variable {x0 y0 x1 y1 : Int32} {width height stride : UInt32}
  {hrows : 4 * width.toNat ≤ stride.toNat} {fuel : ℕ}

theorem line_exact (hnear : Near x0 y0 x1 y1) (hfuel : lineSteps x0 y0 x1 y1 < fuel)
    (hfits : OffsetsFit width.toNat height.toNat stride.toNat (OnLine x0 y0 x1 y1)) :
    Exact width height stride hrows (fun fb rgba => Canvas.line fuel fb x0 y0 x1 y1 rgba)
      (OnLine x0 y0 x1 y1) := by
  intro fb hfb rgba
  obtain ⟨rfl, rfl, rfl, _⟩ := id hfb
  have hwell := hfb.wellFormed hrows
  show Returns (Canvas.line fuel fb x0 y0 x1 y1 rgba) _
  rw [line_eq_foldlM hnear hfuel]
  have hfold : Returns ((List.range (lineSteps x0 y0 x1 y1 + 1)).foldlM
      (fun fb i => plotAt rgba fb (linePoint x0 y0 x1 y1 i)) fb)
      (fb.Drawn hwell.rows (.stack (fun i => .area (fun p : ℕ × ℕ =>
        linePoint x0 y0 x1 y1 i = ((p.1 : ℤ), (p.2 : ℤ))) (fb.encodeRgba rgba))
        (List.range (lineSteps x0 y0 x1 y1 + 1)))) := by
    refine Picture.returns_foldlM_stack (R := fb.Drawn hwell.rows) (drawn_none _) ?_
    intro i hi below mid hmid
    obtain ⟨hwidth, hheight, hstride, hformat⟩ := hmid.shape
    have hencode : mid.encodeRgba rgba = fb.encodeRgba rgba := by
      rw [Framebuffer.encodeRgba, hformat, Framebuffer.encodeRgba]
    obtain ⟨hx, hy⟩ := toInt_linePoint (Nat.lt_succ_iff.mp (List.mem_range.mp hi))
    have hplot := drawn_plot (hmid.wellFormed hwell) (Int32.ofInt (linePoint x0 y0 x1 y1 i).1)
      (Int32.ofInt (linePoint x0 y0 x1 y1 i).2) rgba (by
        rintro p ⟨hpx, hpy⟩ hcolumn hrow
        rw [hstride]
        refine hfits p (hpx.trans_eq (congrArg UInt32.toNat hwidth))
          (hpy.trans_eq (congrArg UInt32.toNat hheight))
          ⟨i, hi, ?_⟩
        rw [hcolumn, hrow, hx, hy])
    rw [hencode] at hplot
    refine hplot.mono fun out hout => hmid.trans (hout.congr fun p _ => Picture.area_congr ?_)
    rw [hx, hy, Prod.ext_iff]
    exact and_congr eq_comm eq_comm
  exact hfold.mono fun out hout => hout.congr fun p _ => Picture.stack_area Iff.rfl

/-- `put_pixel` writes no byte behind the offsets of `u32`. -/
theorem getElem?_putPixel {fb out : Framebuffer} {x y : UInt32} {rgba : Rgba} {i : ℕ}
    (hi : 2 ^ 32 + 3 ≤ i) (hput : fb.putPixel x y rgba = .ok out) :
    out.pixels[i]? = fb.pixels[i]? := by
  unfold Framebuffer.putPixel at hput
  split at hput
  case isTrue => cases hput; rfl
  case isFalse =>
    obtain ⟨buf, hwrite, hout⟩ := bind_eq_ok.mp hput
    cases hout
    have hlen := fb.length_encodeRgba rgba
    obtain ⟨hle, rfl, _⟩ := writePixel_eq_ok hlen hwrite
    have hoff := (y * fb.stride + x * 4).toNat_lt
    rw [Framebuffer.pixels_withPixels, getElem?_eq_head?_bytesAt, getElem?_eq_head?_bytesAt,
      bytesAt_overwrite_of_disjoint (by rwa [hlen]) (by omega)]

theorem getElem?_plotAt {fb out : Framebuffer} {rgba : Rgba} {p : ℤ × ℤ} {i : ℕ}
    (hi : 2 ^ 32 + 3 ≤ i) (hplot : plotAt rgba fb p = .ok out) :
    out.pixels[i]? = fb.pixels[i]? := by
  unfold plotAt Canvas.plot at hplot
  split at hplot
  case isTrue => exact getElem?_putPixel hi hplot
  case isFalse => cases hplot; rfl

/-- The last byte of a pixel whose offset does not fit is not written. -/
theorem offsetsFit_of_exact (hnear : Near x0 y0 x1 y1) (hfuel : lineSteps x0 y0 x1 y1 < fuel)
    (hexact : Exact width height stride hrows
      (fun fb rgba => Canvas.line fuel fb x0 y0 x1 y1 rgba) (OnLine x0 y0 x1 y1)) :
    OffsetsFit width.toNat height.toNat stride.toNat (OnLine x0 y0 x1 y1) := by
  intro p hx hy hp
  by_contra hfar
  obtain ⟨out, hline, hmarks⟩ := hexact.marked_iff
  have hfold := (line_eq_foldlM hnear hfuel _ _).symm.trans hline
  have hmark : Marked out.pixels (p.2 * stride.toNat + 4 * p.1 + 3) :=
    (hmarks _).mpr ⟨p, hx, hy, hp, by omega, by omega⟩
  have hkept := foldlM_keeps (P := fun mid : Framebuffer =>
      mid.pixels[p.2 * stride.toNat + 4 * p.1 + 3]? =
        (blank width height stride).pixels[p.2 * stride.toNat + 4 * p.1 + 3]?)
    (fun i _ mid next hplot hmid => (getElem?_plotAt (by omega) hplot).trans hmid) hfold rfl
  exact not_marked_blank width height stride _ (hkept.symm.trans hmark)

/-- What `line` does.  It plots the points of the digital line from one end to the other, one in
each turn of its loop, whatever the framebuffer is.  On a well formed one, it sets the visible
pixels among them and changes nothing else, as long as their offsets fit in `u32`. -/
theorem line_exact_iff (hnear : Near x0 y0 x1 y1) :
    (∀ (fuel : ℕ) (fb : Framebuffer) (rgba : Rgba), lineSteps x0 y0 x1 y1 < fuel →
      Canvas.line fuel fb x0 y0 x1 y1 rgba = (List.range (lineSteps x0 y0 x1 y1 + 1)).foldlM
        (fun fb i => plotAt rgba fb (linePoint x0 y0 x1 y1 i)) fb) ∧
    Travels x0.toInt x1.toInt (lineSteps x0 y0 x1 y1) (fun i => (linePoint x0 y0 x1 y1 i).1) ∧
    Travels y0.toInt y1.toInt (lineSteps x0 y0 x1 y1) (fun i => (linePoint x0 y0 x1 y1 i).2) ∧
    ∀ (width height stride : UInt32) (hrows : 4 * width.toNat ≤ stride.toNat) (fuel : ℕ),
      lineSteps x0 y0 x1 y1 < fuel →
      (Exact width height stride hrows (fun fb rgba => Canvas.line fuel fb x0 y0 x1 y1 rgba)
          (OnLine x0 y0 x1 y1) ↔
        OffsetsFit width.toNat height.toNat stride.toNat (OnLine x0 y0 x1 y1)) := by
  refine ⟨fun fuel fb rgba hfuel => line_eq_foldlM hnear hfuel fb rgba,
    travels_along (first_le x0 y0 x1 y1), travels_along (second_le x0 y0 x1 y1), ?_⟩
  intro width height stride hrows fuel hfuel
  exact ⟨offsetsFit_of_exact hnear hfuel, line_exact hnear hfuel⟩

/-- A steep line over the left edge of a screen of three columns and two rows. -/
theorem line_exact_iff_steep :
    Exact 3 2 16 (by decide) (fun fb rgba => Canvas.line 6 fb (-1) (-2) 1 3 rgba)
      (OnLine (-1) (-2) 1 3) :=
  ((@line_exact_iff (-1) (-2) 1 3 ⟨by decide, by decide⟩).2.2.2
    3 2 16 (by decide) 6 (by decide)).mpr fun p hx hy _ => by
      have hwidth : (3 : UInt32).toNat = 3 := rfl
      have hheight : (2 : UInt32).toNat = 2 := rfl
      have hstride : (16 : UInt32).toNat = 16 := rfl
      rw [hwidth] at hx
      rw [hheight] at hy
      rw [hstride]
      omega

/-- On a screen of three rows of `2^31` bytes, the offset of the last row wraps to zero. -/
theorem line_wraps {fb : Framebuffer} (hfb : HasShape 1 3 0x80000000 fb) (rgba : Rgba) :
    ∃ out, Canvas.line 1 fb 0 2 0 2 rgba = .ok out ∧ out.pixelAt (0, 2) = fb.pixelAt (0, 2) ∧
      out.pixelAt (0, 0) = fb.encodeRgba rgba := by
  have hstride : (0x80000000 : UInt32).toNat = 2 ^ 31 := rfl
  have hheight : (3 : UInt32).toNat = 3 := rfl
  have hlen := fb.length_encodeRgba rgba
  have hle : 0 + (fb.encodeRgba rgba).length ≤ fb.pixels.length := by
    rw [hlen, hfb.length_eq, hstride, hheight]
    omega
  have hwrite : writePixel fb.pixels 0 (fb.encodeRgba rgba) =
      .ok (overwrite fb.pixels 0 (fb.encodeRgba rgba)) := by
    have hcopy := copyFromSlice_of_le hle
    rwa [hlen] at hcopy
  have hput : fb.putPixel 0 2 rgba =
      .ok (fb.withPixels (overwrite fb.pixels 0 (fb.encodeRgba rgba))) := by
    rw [Framebuffer.putPixel, hfb.width_eq, hfb.height_eq, hfb.stride_eq, if_neg (by decide)]
    exact bind_eq_ok.mpr ⟨_, hwrite, rfl⟩
  refine ⟨fb.withPixels (overwrite fb.pixels 0 (fb.encodeRgba rgba)), ?_, ?_, ?_⟩
  · rw [line_eq_foldlM ⟨by decide, by decide⟩ (by decide),
      show List.range (lineSteps 0 2 0 2 + 1) = [0] from by decide, List.foldlM_cons,
      show linePoint 0 2 0 2 0 = (0, 2) from by decide]
    exact (bind_pure _).trans hput
  · rw [Framebuffer.pixelAt, Framebuffer.pixels_withPixels, Framebuffer.pixelAt]
    refine bytesAt_overwrite_of_disjoint hle (.inr ?_)
    rw [hlen, show (fb.withPixels _).stride = fb.stride from rfl, hfb.stride_eq, hstride]
    omega
  · rw [Framebuffer.pixelAt, Framebuffer.pixels_withPixels, Nat.zero_mul, Nat.mul_zero, ← hlen]
    exact bytesAt_overwrite_self hle

theorem pixelAt_blank {width height stride : UInt32} {p : ℕ × ℕ}
    (hp : p.2 * stride.toNat + 4 * p.1 + 4 ≤ stride.toNat * height.toNat) :
    (blank width height stride).pixelAt p = [0, 0, 0, 0] := by
  show bytesAt (List.replicate _ 0) _ 4 = _
  rw [bytesAt, List.drop_replicate, List.take_replicate, Nat.min_eq_left]
  · rfl
  · exact Nat.le_sub_of_add_le' hp

/-- A line of one point: its pixel is visible and not painted, the first pixel of the screen is
painted instead. -/
theorem line_farPixel :
    OnLine 0 2 0 2 (0, 2) ∧ ¬OnLine 0 2 0 2 (0, 0) ∧
      ∃ out, Canvas.line 1 (blank 1 3 0x80000000) 0 2 0 2 marker = .ok out ∧
        out.pixelAt (0, 2) = [0, 0, 0, 0] ∧ out.pixelAt (0, 0) = [1, 1, 1, 1] := by
  refine ⟨by decide, by decide, ?_⟩
  obtain ⟨out, hline, hfar, hfirst⟩ := line_wraps (hasShape_blank 1 3 0x80000000) marker
  refine ⟨out, hline, hfar.trans (pixelAt_blank (by decide)), ?_⟩
  rw [hfirst, encodeRgba_marker]
  rfl

end Painting

end Hyperion.Ui
