import Hyperion.Display.Pictures

/-!
# Filled and outlined rectangles

`fill_rect` stops at `min(x + w, width)` and `min(y + h, height)`, where the sums wrap, and draws
`x_end - x` columns, where the difference wraps as well.  If it draws no row, or does not start
behind the end of its columns, it draws a rectangle of the screen (`drawn_fillRect`).  Otherwise
it spills: the difference is almost `2^32`, and it writes on and on behind the last of its rows,
to the end of the slice or to other rows (`marked_of_spills`).

`stroke_rect` fills the four edges one after the other.  Its right edge starts behind the end of
its columns already if the rectangle leaves the screen by two pixels.

On a blank screen, drawing with a colour whose bytes are all one marks the bytes that are written,
and no later drawing with it takes a mark away.  So the arguments for which a drawing is exact on
every screen can be read off the marks (`fillRect_strokeRect_exact_iff`).
-/

namespace Hyperion.Display

open Hyperion.Lib

/-! ## Where a side ends -/

/-- `(start + extent).min(bound)` in `u32`. -/
def stop (start extent bound : ℕ) : ℕ := min ((start + extent) % 2 ^ 32) bound

/-- `(start + extent).min(bound) - start` in `u32`. -/
def span (start extent bound : ℕ) : ℕ := (2 ^ 32 - start + stop start extent bound) % 2 ^ 32

section Stop

variable {start extent bound : ℕ}

theorem stop_of_lt (hlt : start + extent < 2 ^ 32) :
    stop start extent bound = min (start + extent) bound := by
  rw [stop, Nat.mod_eq_of_lt hlt]

theorem stop_lt (start extent bound : ℕ) : stop start extent bound < 2 ^ 32 :=
  (min_le_left _ _).trans_lt (Nat.mod_lt _ (by decide))

/-- A sum that wraps ends before the start. -/
theorem le_stop_iff (hextent : extent < 2 ^ 32) (hstart : start < 2 ^ 32) :
    start ≤ stop start extent bound ↔ start + extent < 2 ^ 32 ∧ start ≤ bound := by
  unfold stop
  omega

theorem lt_stop_iff (hextent : extent < 2 ^ 32) (hstart : start < 2 ^ 32) :
    start < stop start extent bound ↔ start + extent < 2 ^ 32 ∧ 0 < extent ∧ start < bound := by
  unfold stop
  omega

theorem span_of_le (hstart : start < 2 ^ 32) (hle : start ≤ stop start extent bound) :
    start + span start extent bound = stop start extent bound := by
  have hlt := stop_lt start extent bound
  unfold span
  omega

theorem span_of_lt (hstart : start < 2 ^ 32) (hlt : stop start extent bound < start) :
    start + span start extent bound = 2 ^ 32 + stop start extent bound := by
  unfold span
  omega

end Stop

/-- The arguments of `fill_rect`. -/
structure Box where
  x : UInt32
  y : UInt32
  w : UInt32
  h : UInt32

namespace Box

/-- `x_end`. -/
def right (b : Box) (width : UInt32) : ℕ := stop b.x.toNat b.w.toNat width.toNat

/-- `y_end`. -/
def bottom (b : Box) (height : UInt32) : ℕ := stop b.y.toNat b.h.toNat height.toNat

/-- The pixels from the start to the end. -/
def Covers (b : Box) (width height : UInt32) (p : ℕ × ℕ) : Prop :=
  b.x.toNat ≤ p.1 ∧ p.1 < b.right width ∧ b.y.toNat ≤ p.2 ∧ p.2 < b.bottom height

instance (b : Box) (width height : UInt32) : DecidablePred (b.Covers width height) :=
  fun _ => inferInstanceAs (Decidable (_ ∧ _ ∧ _ ∧ _))

/-- There is a row to draw, and the columns end before they start. -/
def Spills (b : Box) (width height : UInt32) : Prop :=
  b.y.toNat < b.bottom height ∧ b.right width < b.x.toNat

end Box

/-! ## Rectangles inside the screen -/

section Filling

variable {fb : Framebuffer} {b : Box} {buf pix : List UInt8}

/-- The inner loop of `fill_rect`. -/
def fillRow (fb : Framebuffer) (b : Box) (pix buf : List UInt8) (yy : ℕ) : Checked (List UInt8) :=
  (List.range (span b.x.toNat b.w.toNat fb.width.toNat)).foldlM (fun buf xx =>
    writePixel buf
      (((yy * fb.stride.toNat + b.x.toNat * 4) % usizeBound + xx * 4) % usizeBound) pix)
    buf

theorem fillRect_eq (fb : Framebuffer) (b : Box) (rgba : Rgba) :
    fb.fillRect b.x b.y b.w b.h rgba =
      ((List.range' b.y.toNat (b.bottom fb.height - b.y.toNat)).foldlM
        (fillRow fb b (fb.encodeRgba rgba)) fb.pixels >>= fun buf => pure (fb.withPixels buf)) := by
  have hbottom : (min (b.y + b.h) fb.height).toNat = b.bottom fb.height := by
    rw [toNat_min, UInt32.toNat_add]
    rfl
  have hspan : (min (b.x + b.w) fb.width - b.x).toNat =
      span b.x.toNat b.w.toNat fb.width.toNat := by
    rw [UInt32.toNat_sub, toNat_min, UInt32.toNat_add]
    rfl
  rw [Framebuffer.fillRect]
  simp only [hbottom, hspan]
  rfl

theorem bottom_le (b : Box) (height : UInt32) : b.bottom height ≤ height.toNat := min_le_right _ _

theorem right_le (b : Box) (width : UInt32) : b.right width ≤ width.toNat := min_le_right _ _

theorem returns_fillRow_painted (hfb : fb.WellFormed) (hpix : pix.length = 4)
    (hbuf : buf.length = fb.pixels.length) {yy : ℕ} (hyy : yy < fb.height.toNat)
    (hright : b.x.toNat ≤ b.right fb.width) :
    Returns (fillRow fb b pix buf yy) ((fb.raster hfb.rows).Painted
      (.area (fun p => p.2 = yy ∧ b.x.toNat ≤ p.1 ∧ p.1 < b.right fb.width) pix) buf) := by
  have hspan : b.x.toNat + span b.x.toNat b.w.toNat fb.width.toNat = b.right fb.width :=
    span_of_le b.x.toNat_lt hright
  have hwidth := right_le b fb.width
  have hfold : Returns (fillRow fb b pix buf yy) ((fb.raster hfb.rows).Painted
      (.stack (fun xx => .area (· = (b.x.toNat + xx, yy)) pix)
        (List.range (span b.x.toNat b.w.toNat fb.width.toNat))) buf) := by
    refine Picture.returns_foldlM_stack
      (R := fun picture => (fb.raster hfb.rows).Painted picture buf) (Raster.painted_none buf) ?_
    intro xx hxx below mid hmid
    have hlt := List.mem_range.mp hxx
    have hp : (fb.raster hfb.rows).Visible (b.x.toNat + xx, yy) :=
      ⟨show b.x.toNat + xx < fb.width.toNat by omega, hyy⟩
    have hle : yy * fb.stride.toNat + 4 * (b.x.toNat + xx) + 4 ≤ fb.pixels.length :=
      hfb.pixel_le hp
    have harea := area_lt fb.height fb.stride
    rw [← hfb.shape.length_eq] at harea
    have hoff : ((yy * fb.stride.toNat + b.x.toNat * 4) % usizeBound + xx * 4) % usizeBound =
        yy * fb.stride.toNat + 4 * (b.x.toNat + xx) := by
      rw [Nat.mod_eq_of_lt (show yy * fb.stride.toNat + b.x.toNat * 4 < usizeBound by omega),
        Nat.mod_eq_of_lt (by omega)]
      ring
    have hwrite := returns_writePixel_painted hfb (hmid.length_eq.trans hbuf) hpix hp hoff
    exact hwrite.mono fun out hout => hmid.trans hout
  refine hfold.mono fun out hout => hout.congr fun p _ => Picture.stack_area ?_
  simp only [List.mem_range, Prod.ext_iff]
  constructor
  · intro hin
    exact ⟨p.1 - b.x.toNat, by omega, by omega, hin.1⟩
  · rintro ⟨xx, hxx, hx, hy⟩
    omega

/-- A rectangle that does not spill is drawn from its start to its end. -/
theorem drawn_fillRect (hfb : fb.WellFormed) (hspills : ¬b.Spills fb.width fb.height)
    (rgba : Rgba) :
    Returns (fb.fillRect b.x b.y b.w b.h rgba)
      (fb.Drawn hfb.rows (.area (b.Covers fb.width fb.height) (fb.encodeRgba rgba))) := by
  have hpix := fb.length_encodeRgba rgba
  have hheight := bottom_le b fb.height
  have hfold : Returns ((List.range' b.y.toNat (b.bottom fb.height - b.y.toNat)).foldlM
      (fillRow fb b (fb.encodeRgba rgba)) fb.pixels)
      ((fb.raster hfb.rows).Painted (.stack (fun yy => .area (fun p => p.2 = yy ∧
        b.x.toNat ≤ p.1 ∧ p.1 < b.right fb.width) (fb.encodeRgba rgba))
        (List.range' b.y.toNat (b.bottom fb.height - b.y.toNat))) fb.pixels) := by
    refine Picture.returns_foldlM_stack
      (R := fun picture => (fb.raster hfb.rows).Painted picture fb.pixels)
      (Raster.painted_none _) ?_
    intro yy hyy below mid hmid
    have hmem := List.mem_range'_1.mp hyy
    have hright : b.x.toNat ≤ b.right fb.width :=
      not_lt.mp fun hlt => hspills ⟨by omega, hlt⟩
    have hlt : yy < fb.height.toNat := by omega
    have hrow := returns_fillRow_painted hfb hpix hmid.length_eq hlt hright
    exact hrow.mono fun out hout => hmid.trans hout
  rw [fillRect_eq]
  apply hfold.bind
  intro buf hbuf
  refine returns_pure (drawn_withPixels (hbuf.congr fun p _ => Picture.stack_area ?_))
  simp only [List.mem_range'_1, Box.Covers]
  constructor
  · intro hin
    exact ⟨p.2, by omega, rfl, by omega⟩
  · rintro ⟨yy, hyy, hrow, hcolumn⟩
    omega

end Filling

/-! ## Marks -/

/-- The byte `i` is one. -/
def Marked (bytes : List UInt8) (i : ℕ) : Prop := bytes[i]? = some 1

/-- A colour whose bytes are all one. -/
def marker : Rgba := ⟨1, 1, 1, 1⟩

theorem encodeRgba_marker (fb : Framebuffer) : fb.encodeRgba marker = List.replicate 4 1 := by
  unfold Framebuffer.encodeRgba
  cases fb.format with
  | bgra8 => rfl
  | rgba8 => rfl

section Marks

variable {fb out : Framebuffer} {b : Box} {buf next : List UInt8} {i : ℕ}

theorem marked_writePixel {off : ℕ} (hwrite : writePixel buf off (List.replicate 4 1) = .ok next)
    (hmark : Marked buf i ∨ off ≤ i ∧ i < off + 4) : Marked next i := by
  obtain ⟨hle, rfl, _⟩ := writePixel_eq_ok (by simp) hwrite
  unfold Marked at *
  by_cases hin : off ≤ i ∧ i < off + 4
  · rw [getElem?_overwrite_of_mem (by simpa using hle) hin.1 (by simpa using hin.2),
      List.getElem?_replicate, if_pos (by omega)]
  · rw [getElem?_eq_head?_bytesAt, bytesAt_overwrite_of_disjoint (by simpa using hle),
      ← getElem?_eq_head?_bytesAt]
    · exact hmark.resolve_right hin
    · rw [List.length_replicate]
      omega

theorem marked_fillRow_of_marked {yy : ℕ}
    (hrow : fillRow fb b (List.replicate 4 1) buf yy = .ok next) (hmark : Marked buf i) :
    Marked next i :=
  foldlM_keeps (P := fun buf => Marked buf i)
    (fun _ _ _ _ hwrite hmark => marked_writePixel hwrite (.inl hmark)) hrow hmark

/-- Every byte of the columns of a row is marked, also where they do not end on the screen. -/
theorem marked_fillRow {yy : ℕ} (hyy : yy * fb.stride.toNat < 2 ^ 63)
    (hlow : yy * fb.stride.toNat + 4 * b.x.toNat ≤ i)
    (hhigh : i < yy * fb.stride.toNat +
      4 * (b.x.toNat + span b.x.toNat b.w.toNat fb.width.toNat))
    (hrow : fillRow fb b (List.replicate 4 1) buf yy = .ok next) : Marked next i := by
  obtain ⟨k, hk⟩ : ∃ k, k = i - (yy * fb.stride.toNat + 4 * b.x.toNat) := ⟨_, rfl⟩
  have hspan : span b.x.toNat b.w.toNat fb.width.toNat < 2 ^ 32 := Nat.mod_lt _ (by decide)
  have hx := b.x.toNat_lt
  have hbound : usizeBound = 2 ^ 64 := rfl
  have hcolumn : k / 4 < span b.x.toNat b.w.toNat fb.width.toNat := by omega
  refine foldlM_of_mem (P := fun buf => Marked buf i) (Q := fun _ => True)
    (List.mem_range.mpr hcolumn) (fun _ _ _ _ _ _ => trivial) ?_
    (fun _ _ _ _ hwrite hmark => marked_writePixel hwrite (.inl hmark)) hrow trivial
  intro now after hwrite _
  rw [Nat.mod_eq_of_lt (show yy * fb.stride.toNat + b.x.toNat * 4 < usizeBound by omega),
    Nat.mod_eq_of_lt (show yy * fb.stride.toNat + b.x.toNat * 4 + k / 4 * 4 < usizeBound by omega)]
    at hwrite
  exact marked_writePixel hwrite (.inr (by omega))

theorem marked_fillRect_of_marked (hfill : fb.fillRect b.x b.y b.w b.h marker = .ok out)
    (hmark : Marked fb.pixels i) : Marked out.pixels i := by
  rw [fillRect_eq, encodeRgba_marker] at hfill
  obtain ⟨buf, hrows, hout⟩ := bind_eq_ok.mp hfill
  cases hout
  rw [Framebuffer.pixels_withPixels]
  exact foldlM_keeps (P := fun buf => Marked buf i)
    (fun _ _ _ _ hrow hmark => marked_fillRow_of_marked hrow hmark) hrows hmark

section

variable (hlen : fb.stride.toNat * fb.height.toNat < 2 ^ 63)

include hlen

/-- The bytes of the columns of every row that is drawn are marked. -/
theorem marked_fillRect {yy : ℕ} (htop : b.y.toNat ≤ yy) (hbottom : yy < b.bottom fb.height)
    (hlow : yy * fb.stride.toNat + 4 * b.x.toNat ≤ i) (hhigh : i < yy * fb.stride.toNat +
      4 * (b.x.toNat + span b.x.toNat b.w.toNat fb.width.toNat))
    (hfill : fb.fillRect b.x b.y b.w b.h marker = .ok out) : Marked out.pixels i := by
  have hheight := bottom_le b fb.height
  have hyy : yy * fb.stride.toNat < 2 ^ 63 :=
    calc yy * fb.stride.toNat ≤ fb.height.toNat * fb.stride.toNat :=
          Nat.mul_le_mul_right _ (by omega)
      _ = fb.stride.toNat * fb.height.toNat := Nat.mul_comm _ _
      _ < 2 ^ 63 := hlen
  rw [fillRect_eq, encodeRgba_marker] at hfill
  obtain ⟨buf, hrows, hout⟩ := bind_eq_ok.mp hfill
  cases hout
  rw [Framebuffer.pixels_withPixels]
  have hmem : b.y.toNat ≤ yy ∧ yy < b.y.toNat + (b.bottom fb.height - b.y.toNat) := by omega
  exact foldlM_of_mem (P := fun buf => Marked buf i) (Q := fun _ => True)
    (List.mem_range'_1.mpr hmem) (fun _ _ _ _ _ _ => trivial)
    (fun _ _ hrow _ => marked_fillRow hyy hlow hhigh hrow)
    (fun _ _ _ _ hrow hmark => marked_fillRow_of_marked hrow hmark) hrows trivial

/-- The byte at which a rectangle starts to draw a pixel it covers. -/
theorem marked_of_covers {p : ℕ × ℕ} (hcovers : b.Covers fb.width fb.height p)
    (hfill : fb.fillRect b.x b.y b.w b.h marker = .ok out) :
    Marked out.pixels (p.2 * fb.stride.toNat + 4 * p.1) := by
  obtain ⟨hleft, hright, htop, hbottom⟩ := hcovers
  have hspan : b.x.toNat + span b.x.toNat b.w.toNat fb.width.toNat = b.right fb.width :=
    span_of_le b.x.toNat_lt (hleft.trans hright.le)
  refine marked_fillRect hlen htop hbottom (by omega) ?_ hfill
  rw [hspan]
  omega

/-- A rectangle that spills marks what lies behind its last row. -/
theorem marked_of_spills (hspills : b.Spills fb.width fb.height)
    (hlow : (b.bottom fb.height - 1) * fb.stride.toNat + 4 * b.x.toNat ≤ i)
    (hhigh : i < (b.bottom fb.height - 1) * fb.stride.toNat + 4 * 2 ^ 32)
    (hfill : fb.fillRect b.x b.y b.w b.h marker = .ok out) : Marked out.pixels i := by
  obtain ⟨hbottom, hright⟩ := hspills
  have hspan : b.x.toNat + span b.x.toNat b.w.toNat fb.width.toNat = 2 ^ 32 + b.right fb.width :=
    span_of_lt b.x.toNat_lt hright
  refine marked_fillRect hlen (by omega) (by omega) hlow ?_ hfill
  rw [hspan]
  omega

end

end Marks

/-! ## Several rectangles -/

/-- One rectangle after the other. -/
def fillAll (boxes : List Box) (fb : Framebuffer) (rgba : Rgba) : Checked Framebuffer :=
  boxes.foldlM (fun fb b => fb.fillRect b.x b.y b.w b.h rgba) fb

section Boxes

variable {fb out : Framebuffer} {b : Box} {boxes : List Box} {i : ℕ}

theorem fillRect_numbers {rgba : Rgba} (hfill : fb.fillRect b.x b.y b.w b.h rgba = .ok out) :
    out.width = fb.width ∧ out.height = fb.height ∧ out.stride = fb.stride := by
  rw [fillRect_eq] at hfill
  obtain ⟨buf, _, hout⟩ := bind_eq_ok.mp hfill
  cases hout
  exact ⟨rfl, rfl, rfl⟩

theorem drawn_fillAll (hfb : fb.WellFormed) (hspills : ∀ b ∈ boxes, ¬b.Spills fb.width fb.height)
    (rgba : Rgba) :
    Returns (fillAll boxes fb rgba) (fb.Drawn hfb.rows
      (.stack (fun b => .area (b.Covers fb.width fb.height) (fb.encodeRgba rgba)) boxes)) := by
  refine Picture.returns_foldlM_stack (R := fb.Drawn hfb.rows) (drawn_none _) ?_
  intro b hb below mid hmid
  obtain ⟨hwidth, hheight, _, hformat⟩ := hmid.shape
  have hencode : mid.encodeRgba rgba = fb.encodeRgba rgba := by
    rw [Framebuffer.encodeRgba, hformat, Framebuffer.encodeRgba]
  have hfill := drawn_fillRect (b := b) (hmid.wellFormed hfb)
    (by rw [hwidth, hheight]; exact hspills b hb) rgba
  rw [hencode, hwidth, hheight] at hfill
  exact hfill.mono fun out hout => hmid.trans hout

/-- A mark that one of the rectangles leaves is there at the end. -/
theorem marked_fillAll (hb : b ∈ boxes)
    (hmarks : ∀ mid next : Framebuffer, mid.width = fb.width → mid.height = fb.height →
      mid.stride = fb.stride → mid.fillRect b.x b.y b.w b.h marker = .ok next →
      Marked next.pixels i)
    (hfill : fillAll boxes fb marker = .ok out) : Marked out.pixels i := by
  refine foldlM_of_mem (P := fun mid => Marked mid.pixels i)
    (Q := fun mid => mid.width = fb.width ∧ mid.height = fb.height ∧ mid.stride = fb.stride)
    hb ?_ ?_ (fun _ _ _ _ hfill hmark => marked_fillRect_of_marked hfill hmark) hfill
    ⟨rfl, rfl, rfl⟩
  · intro other _ mid next hnext hmid
    obtain ⟨hwidth, hheight, hstride⟩ := fillRect_numbers hnext
    exact ⟨hwidth.trans hmid.1, hheight.trans hmid.2.1, hstride.trans hmid.2.2⟩
  · intro mid next hnext hmid
    exact hmarks mid next hmid.1 hmid.2.1 hmid.2.2 hnext

end Boxes

/-! ## Exact drawings -/

/-- On every screen of these numbers and in every colour, the drawing sets the visible pixels of
an area and changes nothing else. -/
def Exact (width height stride : UInt32) (hrows : 4 * width.toNat ≤ stride.toNat)
    (draw : Framebuffer → Rgba → Checked Framebuffer) (A : ℕ × ℕ → Prop) [DecidablePred A] : Prop :=
  ∀ (fb : Framebuffer) (hfb : HasShape width height stride fb) (rgba : Rgba),
    Returns (draw fb rgba) (fb.Drawn (hfb.wellFormed hrows).rows (.area A (fb.encodeRgba rgba)))

/-- A screen whose bytes are all zero. -/
def blank (width height stride : UInt32) : Framebuffer :=
  ⟨width, height, stride, .bgra8, .heap (List.replicate (stride.toNat * height.toNat) 0)⟩

section Under

variable {width height stride : UInt32} {A : ℕ × ℕ → Prop} {p : ℕ × ℕ} {i : ℕ}

/-- A byte of a visible pixel of the area. -/
def Under (width height stride : UInt32) (A : ℕ × ℕ → Prop) (i : ℕ) : Prop :=
  ∃ p : ℕ × ℕ, p.1 < width.toNat ∧ p.2 < height.toNat ∧ A p ∧
    p.2 * stride.toNat + 4 * p.1 ≤ i ∧ i < p.2 * stride.toNat + 4 * p.1 + 4

theorem under_of_visible (hx : p.1 < width.toNat) (hy : p.2 < height.toNat) (hA : A p) :
    Under width height stride A (p.2 * stride.toNat + 4 * p.1) :=
  ⟨p, hx, hy, hA, le_rfl, Nat.lt_add_of_pos_right (by decide)⟩

/-- The first byte of a pixel is under that pixel only. -/
theorem of_under_offset (hrows : 4 * width.toNat ≤ stride.toNat) (hx : p.1 < width.toNat)
    (hunder : Under width height stride A (p.2 * stride.toNat + 4 * p.1)) : A p := by
  obtain ⟨q, hqx, _, hA, hlow, hhigh⟩ := hunder
  by_cases heq : q = p
  · rwa [← heq]
  · have hdisjoint : q.2 * stride.toNat + 4 * q.1 + 4 ≤ p.2 * stride.toNat + 4 * p.1 ∨
        p.2 * stride.toNat + 4 * p.1 + 4 ≤ q.2 * stride.toNat + 4 * q.1 :=
      Raster.offset_disjoint (r := ⟨width.toNat, height.toNat, stride.toNat, 4, hrows⟩) hqx hx heq
    omega

/-- Nothing behind the last row of an area is under it. -/
theorem Under.lt (hrows : 4 * width.toNat ≤ stride.toNat) (hunder : Under width height stride A i)
    {e : ℕ} (hA : ∀ p : ℕ × ℕ, p.1 < width.toNat → p.2 < height.toNat → A p → p.2 < e) :
    i < e * stride.toNat := by
  obtain ⟨p, hx, hy, hp, _, hhigh⟩ := hunder
  calc i < p.2 * stride.toNat + 4 * p.1 + 4 := hhigh
    _ ≤ (p.2 + 1) * stride.toNat := Raster.offset_add_size_le_stride
        (r := ⟨width.toNat, height.toNat, stride.toNat, 4, hrows⟩) hx
    _ ≤ e * stride.toNat := Nat.mul_le_mul_right _ (hA p hx hy hp)

end Under

section Exact

variable {width height stride : UInt32} {hrows : 4 * width.toNat ≤ stride.toNat}
  {draw : Framebuffer → Rgba → Checked Framebuffer} {A : ℕ × ℕ → Prop} [DecidablePred A]
  {boxes : List Box} {b : Box} {p : ℕ × ℕ} {i : ℕ}

theorem hasShape_blank (width height stride : UInt32) :
    HasShape width height stride (blank width height stride) :=
  ⟨rfl, rfl, rfl, List.length_replicate⟩

theorem not_marked_blank (width height stride : UInt32) (i : ℕ) :
    ¬Marked (blank width height stride).pixels i := by
  intro hmark
  have hmem := List.mem_of_getElem? hmark
  rw [show (blank width height stride).pixels = List.replicate _ 0 from rfl] at hmem
  exact absurd (List.eq_of_mem_replicate hmem) (by decide)

/-- The marks of an exact drawing are the bytes under its area. -/
theorem marked_iff_under {out : Framebuffer}
    (hdrawn : (blank width height stride).Drawn hrows (.area A (List.replicate 4 1)) out) :
    Marked out.pixels i ↔ Under width height stride A i := by
  constructor
  · intro hmark
    by_contra hunder
    -- the byte is as it was
    apply not_marked_blank width height stride i
    by_cases hpadding : ((blank width height stride).raster hrows).Padding i
    · rwa [Marked, ← hdrawn.painted.padding i hpadding]
    · unfold Raster.Padding at hpadding
      push Not at hpadding
      obtain ⟨p, hp, hlow, hhigh⟩ := hpadding
      have hpixel := hdrawn.painted.pixel p hp
      rw [Picture.area, if_neg fun hA => hunder ⟨p, hp.1, hp.2, hA, hlow, hhigh⟩,
        Option.getD_none] at hpixel
      rwa [Marked, ← Raster.getElem?_pixelAt hlow hhigh, ← hpixel,
        Raster.getElem?_pixelAt hlow hhigh]
  · rintro ⟨p, hx, hy, hA, hlow, hhigh⟩
    have hpixel := hdrawn.painted.pixel p ⟨hx, hy⟩
    rw [Picture.area, if_pos hA, Option.getD_some] at hpixel
    have hbyte : (((blank width height stride).raster hrows).pixelAt out.pixels p)[
        i - (p.2 * stride.toNat + 4 * p.1)]? = out.pixels[i]? :=
      Raster.getElem?_pixelAt hlow hhigh
    rw [Marked, ← hbyte, hpixel, List.getElem?_replicate, if_pos]
    show i - (p.2 * stride.toNat + 4 * p.1) < 4
    omega

theorem Exact.marked_iff (hexact : Exact width height stride hrows draw A) :
    ∃ out, draw (blank width height stride) marker = .ok out ∧
      ∀ i, Marked out.pixels i ↔ Under width height stride A i := by
  obtain ⟨out, hdraw, hdrawn⟩ := hexact _ (hasShape_blank width height stride) marker
  rw [encodeRgba_marker] at hdrawn
  exact ⟨out, hdraw, fun i => marked_iff_under hdrawn⟩

theorem exact_fillAll (hspills : ∀ b ∈ boxes, ¬b.Spills width height)
    (hcovers : ∀ p : ℕ × ℕ, p.1 < width.toNat → p.2 < height.toNat →
      (A p ↔ ∃ b ∈ boxes, b.Covers width height p)) :
    Exact width height stride hrows (fillAll boxes) A := by
  intro fb hfb rgba
  obtain ⟨rfl, rfl, rfl, _⟩ := id hfb
  refine (drawn_fillAll (hfb.wellFormed hrows) hspills rgba).mono fun out hout => hout.congr ?_
  exact fun p hp => Picture.stack_area (hcovers p hp.1 hp.2)

namespace Exact

/-- A drawing is exact for one area of the screen. -/
theorem unique {B : ℕ × ℕ → Prop} [DecidablePred B]
    (hA : Exact width height stride hrows draw A) (hB : Exact width height stride hrows draw B)
    (hx : p.1 < width.toNat) (hy : p.2 < height.toNat) (hp : A p) : B p := by
  obtain ⟨out, hdraw, hmarksA⟩ := hA.marked_iff
  obtain ⟨out', hdraw', hmarksB⟩ := hB.marked_iff
  rw [hdraw] at hdraw'
  cases hdraw'
  exact of_under_offset hrows hx ((hmarksB _).mp ((hmarksA _).mpr (under_of_visible hx hy hp)))

theorem congr {B : ℕ × ℕ → Prop} [DecidablePred B]
    (hexact : Exact width height stride hrows draw A)
    (hiff : ∀ p : ℕ × ℕ, p.1 < width.toNat → p.2 < height.toNat → (A p ↔ B p)) :
    Exact width height stride hrows draw B := by
  intro fb hfb rgba
  refine (hexact fb hfb rgba).mono fun out hout => hout.congr fun p hp => ?_
  obtain ⟨rfl, rfl, rfl, _⟩ := id hfb
  exact Picture.area_congr (hiff p hp.1 hp.2)

section

variable (hexact : Exact width height stride hrows (fillAll boxes) A)

include hexact

section

variable (hlen : stride.toNat * height.toNat < 2 ^ 63)

include hlen

theorem of_covers (hb : b ∈ boxes) (hcovers : b.Covers width height p) : A p := by
  obtain ⟨out, hfill, hmarks⟩ := hexact.marked_iff
  have hmark : Marked out.pixels (p.2 * stride.toNat + 4 * p.1) := by
    refine marked_fillAll hb (fun mid next hwidth hheight hstride hnext => ?_) hfill
    have hlen' : mid.stride.toNat * mid.height.toNat < 2 ^ 63 := by rwa [hstride, hheight]
    have hcovers' : b.Covers mid.width mid.height p := by rwa [hwidth, hheight]
    have hmark := marked_of_covers hlen' hcovers' hnext
    rwa [hstride] at hmark
  exact of_under_offset hrows (hcovers.2.1.trans_le (right_le b width)) ((hmarks _).mp hmark)

theorem under_of_spills (hb : b ∈ boxes) (hspills : b.Spills width height)
    (hlow : (b.bottom height - 1) * stride.toNat + 4 * b.x.toNat ≤ i)
    (hhigh : i < (b.bottom height - 1) * stride.toNat + 4 * 2 ^ 32) :
    Under width height stride A i := by
  obtain ⟨out, hfill, hmarks⟩ := hexact.marked_iff
  refine (hmarks i).mp (marked_fillAll hb (fun mid next hwidth hheight hstride hnext => ?_) hfill)
  have hlen' : mid.stride.toNat * mid.height.toNat < 2 ^ 63 := by rwa [hstride, hheight]
  have hspills' : b.Spills mid.width mid.height := by rwa [hwidth, hheight]
  refine marked_of_spills hlen' hspills' ?_ ?_ hnext
  · rwa [hheight, hstride]
  · rwa [hheight, hstride]

/-- A rectangle that ends the area below does not spill: the column `2^32 - 1` of its last row
lies behind that row. -/
theorem not_spills (hb : b ∈ boxes)
    (hA : ∀ p : ℕ × ℕ, p.1 < width.toNat → p.2 < height.toNat → A p → p.2 < b.bottom height) :
    ¬b.Spills width height := by
  intro hspills
  have hx := b.x.toNat_lt
  have hstride := stride.toNat_lt
  have hunder := hexact.under_of_spills hlen hb hspills
    (i := (b.bottom height - 1) * stride.toNat + 4 * (2 ^ 32 - 1)) (by omega) (by omega)
  have hlast := hunder.lt hrows hA
  obtain ⟨n, hn⟩ := Nat.exists_eq_succ_of_ne_zero (Nat.ne_zero_of_lt hspills.1)
  rw [hn, Nat.succ_sub_one, Nat.succ_mul n] at hlast
  omega

end

/-- Where nothing spills, the area is covered. -/
theorem exists_covers (hspills : ∀ b ∈ boxes, ¬b.Spills width height) (hx : p.1 < width.toNat)
    (hy : p.2 < height.toNat) (hp : A p) : ∃ b ∈ boxes, b.Covers width height p :=
  hexact.unique (exact_fillAll hspills fun _ _ _ => Iff.rfl) hx hy hp

end

end Exact

end Exact

/-! ## When `fill_rect` and `stroke_rect` are exact -/

namespace Box

variable {b : Box} {width height : UInt32} {p : ℕ × ℕ}

theorem spills_iff : b.Spills width height ↔
    (b.y.toNat + b.h.toNat < 2 ^ 32 ∧ 0 < b.h.toNat ∧ b.y.toNat < height.toNat) ∧
      ¬(b.x.toNat + b.w.toNat < 2 ^ 32 ∧ b.x.toNat ≤ width.toNat) :=
  and_congr (lt_stop_iff b.h.toNat_lt b.y.toNat_lt)
    (not_le.symm.trans (not_congr (le_stop_iff b.w.toNat_lt b.x.toNat_lt)))

theorem covers_iff : b.Covers width height p ↔
    (b.x.toNat ≤ p.1 ∧ p.1 < b.x.toNat + b.w.toNat ∧ b.x.toNat + b.w.toNat < 2 ^ 32 ∧
      p.1 < width.toNat) ∧
    (b.y.toNat ≤ p.2 ∧ p.2 < b.y.toNat + b.h.toNat ∧ b.y.toNat + b.h.toNat < 2 ^ 32 ∧
      p.2 < height.toNat) := by
  have hx := b.x.toNat_lt
  have hy := b.y.toNat_lt
  have hw := b.w.toNat_lt
  have hh := b.h.toNat_lt
  unfold Covers right bottom stop
  omega

end Box

/-- The rectangle, with sums that do not wrap. -/
def InRect (x y w h : ℕ) (p : ℕ × ℕ) : Prop := x ≤ p.1 ∧ p.1 < x + w ∧ y ≤ p.2 ∧ p.2 < y + h

/-- Its outline. -/
def OnOutline (x y w h : ℕ) (p : ℕ × ℕ) : Prop :=
  InRect x y w h p ∧ (p.1 = x ∨ p.1 + 1 = x + w ∨ p.2 = y ∨ p.2 + 1 = y + h)

instance (x y w h : ℕ) : DecidablePred (InRect x y w h) :=
  fun _ => inferInstanceAs (Decidable (_ ∧ _ ∧ _ ∧ _))

instance (x y w h : ℕ) : DecidablePred (OnOutline x y w h) :=
  fun _ => inferInstanceAs (Decidable (_ ∧ (_ ∨ _ ∨ _ ∨ _)))

/-- There is no row of the rectangle to draw, or it starts at the right edge at the latest and
its sums do not wrap.  If `y + h` wraps, no row is drawn. -/
def FillExact (width height x y w h : ℕ) : Prop :=
  h = 0 ∨ height ≤ y ∨ (y + h < 2 ^ 32 ∧ x ≤ width ∧ x + w < 2 ^ 32) ∨
    (2 ^ 32 ≤ y + h ∧ (w = 0 ∨ width ≤ x))

/-- The rectangle leaves the screen on the right by at most one pixel, or lies below it.  If
`y + h` wraps, the vertical edges are not drawn, and the lower edge is drawn further up. -/
def StrokeExact (width height x y w h : ℕ) : Prop :=
  w = 0 ∨ h = 0 ∨ (y + h < 2 ^ 32 ∧ (height ≤ y ∨ x + w ≤ width + 1)) ∨
    (2 ^ 32 ≤ y + h ∧ height ≤ y ∧
      (y + h = 2 ^ 32 ∨ 2 ^ 32 + height < y + h ∨ (x = width ∧ x + w < 2 ^ 32))) ∨
    (2 ^ 32 ≤ y + h ∧ y < height ∧ x + w < 2 ^ 32 ∧
      (x = width ∨ (x < width ∧ y + h = 2 ^ 32 ∧ height = y + 1)))

section Rects

variable {width height stride : UInt32} {hrows : 4 * width.toNat ≤ stride.toNat} {x y w h : UInt32}

theorem fillRect_eq_fillAll (x y w h : UInt32) :
    (fun (fb : Framebuffer) rgba => fb.fillRect x y w h rgba) = fillAll [⟨x, y, w, h⟩] := by
  funext fb rgba
  exact (bind_pure _).symm

theorem fillRect_exact
    (hexact : FillExact width.toNat height.toNat x.toNat y.toNat w.toNat h.toNat) :
    Exact width height stride hrows (fun fb rgba => fb.fillRect x y w h rgba)
      (InRect x.toNat y.toNat w.toNat h.toNat) := by
  rw [fillRect_eq_fillAll]
  unfold FillExact at hexact
  refine exact_fillAll ?_ ?_
  · intro b hb
    rw [List.mem_singleton.mp hb, Box.spills_iff]
    dsimp only
    omega
  · intro p hx hy
    simp only [List.mem_singleton, exists_eq_left, Box.covers_iff, InRect]
    omega

theorem fillRect_exact_iff (hlen : stride.toNat * height.toNat < 2 ^ 63) :
    Exact width height stride hrows (fun fb rgba => fb.fillRect x y w h rgba)
        (InRect x.toNat y.toNat w.toNat h.toNat) ↔
      FillExact width.toNat height.toNat x.toNat y.toNat w.toNat h.toNat := by
  refine ⟨fun hexact => ?_, fillRect_exact⟩
  rw [fillRect_eq_fillAll] at hexact
  by_contra hnot
  unfold FillExact at hnot
  by_cases hwraps : y.toNat + h.toNat < 2 ^ 32
  · have hbottom : Box.bottom ⟨x, y, w, h⟩ height = min (y.toNat + h.toNat) height.toNat :=
      stop_of_lt hwraps
    refine hexact.not_spills hlen (List.mem_singleton.mpr rfl) (fun p _ hy hp => ?_) ?_
    · unfold InRect at hp
      omega
    · rw [Box.spills_iff]
      dsimp only
      omega
  · -- no row is drawn
    have hspills : ∀ b ∈ [(⟨x, y, w, h⟩ : Box)], ¬b.Spills width height := by
      intro b hb
      rw [List.mem_singleton.mp hb, Box.spills_iff]
      dsimp only
      omega
    have hcovered := hexact.exists_covers hspills (p := (x.toNat, y.toNat)) (by omega) (by omega)
      (by unfold InRect; dsimp only; have := h.toNat_lt; have := y.toNat_lt; omega)
    simp only [List.mem_singleton, exists_eq_left, Box.covers_iff] at hcovered
    omega

/-- The four calls of `stroke_rect`. -/
def edges (x y w h : UInt32) : List Box :=
  [⟨x, y, w, 1⟩, ⟨x, y + saturatingSub32 h 1, w, 1⟩, ⟨x, y, 1, h⟩,
    ⟨x + saturatingSub32 w 1, y, 1, h⟩]

theorem edges_mem (x y w h : UInt32) :
    ⟨x, y, w, 1⟩ ∈ edges x y w h ∧ ⟨x, y + saturatingSub32 h 1, w, 1⟩ ∈ edges x y w h ∧
      ⟨x, y, 1, h⟩ ∈ edges x y w h ∧ ⟨x + saturatingSub32 w 1, y, 1, h⟩ ∈ edges x y w h :=
  ⟨.head _, .tail _ (.head _), .tail _ (.tail _ (.head _)), .tail _ (.tail _ (.tail _ (.head _)))⟩

theorem strokeRect_eq_fillAll (x y : UInt32) (hw : w ≠ 0) (hh : h ≠ 0) :
    (fun (fb : Framebuffer) rgba => fb.strokeRect x y w h rgba) = fillAll (edges x y w h) := by
  funext fb rgba
  rw [Framebuffer.strokeRect, if_neg (not_or.mpr ⟨hw, hh⟩)]
  simp only [fillAll, edges, List.foldlM_cons, List.foldlM_nil, bind_pure]

theorem toNat_last (y : UInt32) (hh : h ≠ 0) :
    (y + saturatingSub32 h 1).toNat = (y.toNat + h.toNat - 1) % 2 ^ 32 := by
  have hpos : h.toNat ≠ 0 := fun hzero => hh (UInt32.toNat_inj.mp hzero)
  have hone : (1 : UInt32).toNat = 1 := rfl
  have hle : 1 ≤ h := UInt32.le_iff_toNat_le.mpr (by omega)
  rw [saturatingSub32, if_pos hle, UInt32.toNat_add, UInt32.toNat_sub_of_le _ _ hle, hone,
    Nat.add_sub_assoc (by omega)]

theorem strokeRect_eq_fillAll_nil (x y : UInt32) (hempty : w = 0 ∨ h = 0) :
    (fun (fb : Framebuffer) rgba => fb.strokeRect x y w h rgba) = fillAll [] := by
  funext fb rgba
  exact if_pos hempty

theorem strokeRect_exact
    (hexact : StrokeExact width.toNat height.toNat x.toNat y.toNat w.toNat h.toNat) :
    Exact width height stride hrows (fun fb rgba => fb.strokeRect x y w h rgba)
      (OnOutline x.toNat y.toNat w.toNat h.toNat) := by
  by_cases hempty : w = 0 ∨ h = 0
  · rw [strokeRect_eq_fillAll_nil x y hempty]
    refine exact_fillAll (by simp) fun p _ _ => ?_
    have hzero : w.toNat = 0 ∨ h.toNat = 0 := hempty.imp (congrArg _) (congrArg _)
    simp only [List.not_mem_nil, false_and, exists_false, iff_false, OnOutline, InRect]
    omega
  obtain ⟨hw, hh⟩ := not_or.mp hempty
  rw [strokeRect_eq_fillAll x y hw hh]
  have hwpos : w.toNat ≠ 0 := fun hzero => hw (UInt32.toNat_inj.mp hzero)
  have hhpos : h.toNat ≠ 0 := fun hzero => hh (UInt32.toNat_inj.mp hzero)
  have hone : (1 : UInt32).toNat = 1 := rfl
  have hstride := stride.toNat_lt
  have hheight := height.toNat_lt
  have hylt := y.toNat_lt
  have hhlt := h.toNat_lt
  unfold StrokeExact at hexact
  refine exact_fillAll ?_ ?_
  · simp only [edges, List.forall_mem_cons, Box.spills_iff, toNat_last y hh, toNat_last x hw, hone]
    refine ⟨by omega, by omega, by omega, by omega, by simp⟩
  · intro p hpx hpy
    simp only [edges, List.mem_cons, List.not_mem_nil, or_false, exists_eq_or_imp, exists_eq_left,
      Box.covers_iff, OnOutline, InRect, toNat_last y hh, toNat_last x hw, hone]
    rcases hexact with hzero | hzero | ⟨hplain, hbelow | hnarrow⟩ | ⟨_, hbelow, _⟩ |
      ⟨hwraps, _, hplain, hedge | hedge⟩
    · exact absurd hzero hwpos
    · exact absurd hzero hhpos
    · omega
    · omega
    · omega
    · omega
    · omega

section

variable (hlen : stride.toNat * height.toNat < 2 ^ 63)

include hlen

section

variable (hexact : Exact width height stride hrows (fillAll (edges x y w h))
      (OnOutline x.toNat y.toNat w.toNat h.toNat))

include hexact

/-- If `y + h` does not wrap, an exact outline leaves the screen by at most one pixel. -/
theorem strokeExact_of_plain (hw : w ≠ 0) (hpos : 0 < h.toNat) (hwraps : y.toNat + h.toNat < 2 ^ 32)
    (hy : y.toNat < height.toNat) :
    x.toNat + w.toNat ≤ width.toNat + 1 := by
  have hone : (1 : UInt32).toNat = 1 := rfl
  have hxlt := x.toNat_lt
  have hwlt := w.toNat_lt
  have hstride := stride.toNat_lt
  have hbottom : ∀ x' : UInt32,
      Box.bottom ⟨x', y, 1, h⟩ height = min (y.toNat + h.toNat) height.toNat :=
    fun _ => stop_of_lt hwraps
  -- the vertical edges end where the outline ends
  have hrowsOf : ∀ x' : UInt32, ∀ p : ℕ × ℕ, p.1 < width.toNat → p.2 < height.toNat →
      OnOutline x.toNat y.toNat w.toNat h.toNat p → p.2 < Box.bottom ⟨x', y, 1, h⟩ height := by
    intro x' p _ hpy hp
    unfold OnOutline InRect at hp
    rw [hbottom x']
    omega
  by_contra hwide
  have hleft := hexact.not_spills hlen (b := ⟨x, y, 1, h⟩) (edges_mem x y w h).2.2.1 (hrowsOf x)
  have hright := hexact.not_spills hlen (b := ⟨x + saturatingSub32 w 1, y, 1, h⟩)
    (edges_mem x y w h).2.2.2 (hrowsOf _)
  rw [Box.spills_iff] at hleft hright
  simp only [toNat_last x hw, hone] at hleft hright
  -- the right edge has wrapped to a column left of the rectangle
  have hcovers : Box.Covers ⟨x + saturatingSub32 w 1, y, 1, h⟩ width height
      ((x.toNat + w.toNat - 1) % 2 ^ 32, y.toNat) := by
    rw [Box.covers_iff]
    simp only [toNat_last x hw, hone]
    omega
  have hin := hexact.of_covers hlen (edges_mem x y w h).2.2.2 hcovers
  unfold OnOutline InRect at hin
  omega

/-- If `y + h` wraps below the screen, the lower edge must miss the screen. -/
theorem strokeExact_of_below (hh : h ≠ 0) (hpos : 0 < w.toNat) (hwraps : 2 ^ 32 ≤ y.toNat + h.toNat)
    (hy : height.toNat ≤ y.toNat) :
    y.toNat + h.toNat = 2 ^ 32 ∨ 2 ^ 32 + height.toNat < y.toNat + h.toNat ∨
      (x.toNat = width.toNat ∧ x.toNat + w.toNat < 2 ^ 32) := by
  have hone : (1 : UInt32).toNat = 1 := rfl
  have hylt := y.toNat_lt
  have hhlt := h.toNat_lt
  have hheight := height.toNat_lt
  by_contra hnot
  have hlower := hexact.not_spills hlen (b := ⟨x, y + saturatingSub32 h 1, w, 1⟩)
    (edges_mem x y w h).2.1 (fun p _ hpy hp => absurd hp.1.2.2.1 (by omega))
  rw [Box.spills_iff] at hlower
  simp only [toNat_last y hh, hone] at hlower
  have hcovers : Box.Covers ⟨x, y + saturatingSub32 h 1, w, 1⟩ width height
      (x.toNat, (y.toNat + h.toNat - 1) % 2 ^ 32) := by
    rw [Box.covers_iff]
    simp only [toNat_last y hh, hone]
    omega
  have hin := hexact.of_covers hlen (edges_mem x y w h).2.1 hcovers
  unfold OnOutline InRect at hin
  omega

/-- If `y + h` wraps, the upper edge must not spill: it would colour the first column of the next
row, which is left of the rectangle. -/
theorem upper_not_spills (hy : y.toNat < height.toNat) :
    x.toNat + w.toNat < 2 ^ 32 ∧ x.toNat ≤ width.toNat := by
  have hone : (1 : UInt32).toNat = 1 := rfl
  have hheight := height.toNat_lt
  have hstride := stride.toNat_lt
  have hwlt := w.toNat_lt
  by_contra hnot
  have hspills : Box.Spills ⟨x, y, w, 1⟩ width height := by
    rw [Box.spills_iff]
    simp only [hone]
    omega
  by_cases hright : width.toNat < x.toNat
  · exact hexact.not_spills hlen (edges_mem x y w h).1
      (fun p hpx _ hp => absurd hp.1.1 (by omega)) hspills
  · have hbottom : Box.bottom ⟨x, y, w, 1⟩ height = y.toNat + 1 := by
      refine (stop_of_lt (by simp only [hone]; omega)).trans ?_
      simp only [hone]
      omega
    have hnext : (y.toNat + 1) * stride.toNat = y.toNat * stride.toNat + stride.toNat :=
      Nat.succ_mul _ _
    have hunder := hexact.under_of_spills hlen (edges_mem x y w h).1 hspills
      (i := (y.toNat + 1) * stride.toNat + 4 * 0)
      (by rw [hbottom, Nat.add_sub_cancel]; dsimp only; omega)
      (by rw [hbottom, Nat.add_sub_cancel]; omega)
    have hin := of_under_offset hrows (p := (0, y.toNat + 1)) (by omega) hunder
    unfold OnOutline InRect at hin
    omega

/-- If `y + h` wraps inside the screen, there must be nothing to see of the other edges. -/
theorem strokeExact_of_inside (hw : w ≠ 0) (hh : h ≠ 0) (hwraps : 2 ^ 32 ≤ y.toNat + h.toNat)
    (hy : y.toNat < height.toNat) :
    x.toNat = width.toNat ∨
      (x.toNat < width.toNat ∧ y.toNat + h.toNat = 2 ^ 32 ∧ height.toNat = y.toNat + 1) := by
  have hone : (1 : UInt32).toNat = 1 := rfl
  have hwpos : w.toNat ≠ 0 := fun hzero => hw (UInt32.toNat_inj.mp hzero)
  have hhlt := h.toNat_lt
  have hheight := height.toNat_lt
  have hplain := upper_not_spills hlen hexact hy
  by_contra hnot
  by_cases hlast : y.toNat + h.toNat = 2 ^ 32
  · -- the left edge is not drawn
    have hspills : ∀ b ∈ edges x y w h, ¬b.Spills width height := by
      simp only [edges, List.forall_mem_cons, Box.spills_iff, toNat_last y hh, toNat_last x hw,
        hone]
      refine ⟨by omega, by omega, by omega, by omega, by simp⟩
    have hcovered := hexact.exists_covers hspills (p := (x.toNat, y.toNat + 1)) (by omega)
      (by omega) (by unfold OnOutline InRect; dsimp only; omega)
    simp only [edges, List.mem_cons, List.not_mem_nil, or_false, exists_eq_or_imp, exists_eq_left,
      Box.covers_iff, toNat_last y hh, toNat_last x hw, hone] at hcovered
    omega
  · -- the lower edge is drawn above the upper one
    have hcovers : Box.Covers ⟨x, y + saturatingSub32 h 1, w, 1⟩ width height
        (x.toNat, (y.toNat + h.toNat - 1) % 2 ^ 32) := by
      rw [Box.covers_iff]
      simp only [toNat_last y hh, hone]
      omega
    have hin := hexact.of_covers hlen (edges_mem x y w h).2.1 hcovers
    unfold OnOutline InRect at hin
    omega

end

theorem strokeRect_exact_iff :
    Exact width height stride hrows (fun fb rgba => fb.strokeRect x y w h rgba)
        (OnOutline x.toNat y.toNat w.toNat h.toNat) ↔
      StrokeExact width.toNat height.toNat x.toNat y.toNat w.toNat h.toNat := by
  refine ⟨fun hexact => ?_, strokeRect_exact⟩
  by_cases hempty : w = 0 ∨ h = 0
  · have hzero : w.toNat = 0 ∨ h.toNat = 0 := hempty.imp (congrArg _) (congrArg _)
    exact hzero.imp_right .inl
  obtain ⟨hw, hh⟩ := not_or.mp hempty
  rw [strokeRect_eq_fillAll x y hw hh] at hexact
  have hwpos : w.toNat ≠ 0 := fun hzero => hw (UInt32.toNat_inj.mp hzero)
  have hhpos : h.toNat ≠ 0 := fun hzero => hh (UInt32.toNat_inj.mp hzero)
  refine .inr (.inr ?_)
  rcases Nat.lt_or_ge (y.toNat + h.toNat) (2 ^ 32) with hplain | hwraps
  · refine .inl ⟨hplain, ?_⟩
    rcases Nat.lt_or_ge y.toNat height.toNat with hy | hy
    · exact .inr (strokeExact_of_plain hlen hexact hw (by omega) hplain hy)
    · exact .inl hy
  · rcases Nat.lt_or_ge y.toNat height.toNat with hy | hy
    · exact .inr (.inr ⟨hwraps, hy, (upper_not_spills hlen hexact hy).1,
        strokeExact_of_inside hlen hexact hw hh hwraps hy⟩)
    · exact .inr (.inl ⟨hwraps, hy, strokeExact_of_below hlen hexact hh (by omega) hwraps hy⟩)

end

/-- The arguments for which `fill_rect` and `stroke_rect` return and set exactly the visible pixels
of the rectangle, and of its outline, on every screen of these numbers.  A slice of the language
has fewer than `2^63` bytes. -/
theorem fillRect_strokeRect_exact_iff (hrows : 4 * width.toNat ≤ stride.toNat)
    (hlen : stride.toNat * height.toNat < 2 ^ 63) (x y w h : UInt32) :
    (Exact width height stride hrows (fun fb rgba => fb.fillRect x y w h rgba)
        (InRect x.toNat y.toNat w.toNat h.toNat) ↔
      FillExact width.toNat height.toNat x.toNat y.toNat w.toNat h.toNat) ∧
    (Exact width height stride hrows (fun fb rgba => fb.strokeRect x y w h rgba)
        (OnOutline x.toNat y.toNat w.toNat h.toNat) ↔
      StrokeExact width.toNat height.toNat x.toNat y.toNat w.toNat h.toNat) :=
  ⟨fillRect_exact_iff hlen, strokeRect_exact_iff hlen⟩

/-- A screen of three columns and two rows, with a rectangle over its right edge. -/
theorem fillRect_strokeRect_exact_iff_overRightEdge :
    Exact 3 2 16 (by decide) (fun fb rgba => fb.fillRect 2 1 2 4 rgba) (InRect 2 1 2 4) ∧
      Exact 3 2 16 (by decide) (fun fb rgba => fb.strokeRect 2 1 2 4 rgba) (OnOutline 2 1 2 4) :=
  have hexact := @fillRect_strokeRect_exact_iff 3 2 16 (by decide) (by decide) 2 1 2 4
  ⟨hexact.1.mpr (by unfold FillExact; decide), hexact.2.mpr (by unfold StrokeExact; decide)⟩

theorem writePixel_of_gt {buf pix : List UInt8} {off : ℕ} (hgt : buf.length < off + 4) :
    writePixel buf off pix = .error .sliceOutOfRange := by
  rw [writePixel, copyFromSlice, slice, if_neg (by omega)]
  rfl

/-- A rectangle whose first pixel lies behind the slice. -/
theorem fillRect_error {fb : Framebuffer} {b : Box} {rgba : Rgba}
    (hbottom : b.y.toNat < b.bottom fb.height)
    (hspan : 0 < span b.x.toNat b.w.toNat fb.width.toNat)
    (hgt : fb.pixels.length < (b.y.toNat * fb.stride.toNat + b.x.toNat * 4) % usizeBound + 4) :
    fb.fillRect b.x b.y b.w b.h rgba = .error .sliceOutOfRange := by
  obtain ⟨rows, hrows⟩ : ∃ rows, b.bottom fb.height - b.y.toNat = rows + 1 :=
    Nat.exists_eq_succ_of_ne_zero (by omega)
  obtain ⟨columns, hcolumns⟩ := Nat.exists_eq_succ_of_ne_zero hspan.ne'
  rw [fillRect_eq, hrows, List.range'_succ, List.foldlM_cons, fillRow, hcolumns,
    List.range_succ_eq_map, List.foldlM_cons, Nat.zero_mul, Nat.add_zero, Nat.mod_mod,
    writePixel_of_gt hgt]
  rfl

end Rects

/-- A rectangle that starts a column behind the right edge, and an outline whose right edge does:
the loop over the columns runs out of the slice. -/
theorem fillRect_strokeRect_behindRightEdge :
    (blank 1 1 4).fillRect 2 0 1 1 marker = .error .sliceOutOfRange ∧
      (blank 1 1 4).strokeRect 0 0 3 1 marker = .error .sliceOutOfRange := by
  have hright : ∀ fb : Framebuffer, fb.width = 1 → fb.height = 1 → fb.stride = 4 →
      fb.pixels.length = 4 → fb.fillRect 2 0 1 1 marker = .error .sliceOutOfRange := by
    intro fb hwidth hheight hstride hlength
    refine fillRect_error (b := ⟨2, 0, 1, 1⟩) ?_ ?_ ?_
    · rw [hheight]
      decide
    · rw [hwidth]
      decide
    · rw [hstride, hlength]
      decide
  refine ⟨hright _ rfl rfl rfl rfl, ?_⟩
  -- the other edges set the one pixel
  obtain ⟨full, hfull⟩ : ∃ full, full = (blank 1 1 4).withPixels [1, 1, 1, 1] := ⟨_, rfl⟩
  have hlast : (0 : UInt32) + saturatingSub32 1 1 = 0 := by decide
  have hbehind : (0 : UInt32) + saturatingSub32 3 1 = 2 := by decide
  have hupper : (blank 1 1 4).fillRect 0 0 3 1 marker = .ok full := by
    rw [hfull]
    decide +kernel
  have hlower : full.fillRect 0 0 3 1 marker = .ok full := by
    rw [hfull]
    decide +kernel
  have hleft : full.fillRect 0 0 1 1 marker = .ok full := by
    rw [hfull]
    decide +kernel
  have hfails := hright full (by rw [hfull]; rfl) (by rw [hfull]; rfl) (by rw [hfull]; rfl)
    (by rw [hfull]; rfl)
  rw [Framebuffer.strokeRect, if_neg (by decide), hupper]
  show (full.fillRect 0 (0 + saturatingSub32 1 1) 3 1 marker >>= fun fb =>
    fb.fillRect 0 0 1 1 marker >>= fun fb =>
      fb.fillRect (0 + saturatingSub32 3 1) 0 1 1 marker) = _
  rw [hlast, hlower]
  show (full.fillRect 0 0 1 1 marker >>= fun fb =>
    fb.fillRect (0 + saturatingSub32 3 1) 0 1 1 marker) = _
  rw [hleft]
  show full.fillRect (0 + saturatingSub32 3 1) 0 1 1 marker = _
  rw [hbehind, hfails]

end Hyperion.Display
