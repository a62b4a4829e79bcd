import Hyperion.Display.Framebuffer

/-!
# Drawing inside the slice

A framebuffer is well formed if its slice has as many bytes as its stride and height
say and a row of pixels is not longer than the stride.  Then the four bytes of every
visible pixel are inside the slice, also after the 32-bit arithmetic of `put_pixel` and
`blit` has wrapped, which only makes an offset smaller.

`HasShape width height stride` is the invariant of a drawing: no operation changes the
numbers or the length of the slice.  With rows that fit, every drawing inside the screen
keeps it (`drawAll_ends`).  With rows that do not fit, `clear` faults on the last row
(`rows_of_clear`).
-/

namespace Hyperion.Display

open Hyperion.Lib

/-! ## Shapes -/

/-- A framebuffer of these numbers, with a slice of the length they say. -/
structure HasShape (width height stride : UInt32) (fb : Framebuffer) : Prop where
  width_eq : fb.width = width
  height_eq : fb.height = height
  stride_eq : fb.stride = stride
  length_eq : fb.pixels.length = stride.toNat * height.toNat

namespace Framebuffer

/-- A row of pixels is not longer than the stride. -/
def RowsFit (fb : Framebuffer) : Prop := 4 * fb.width.toNat ≤ fb.stride.toNat

/-- Rows fit, and the slice is `stride * height` bytes long. -/
structure WellFormed (fb : Framebuffer) : Prop where
  rows : fb.RowsFit
  shape : HasShape fb.width fb.height fb.stride fb

@[simp] theorem pixels_withPixels (fb : Framebuffer) (bytes : List UInt8) :
    (fb.withPixels bytes).pixels = bytes := by
  unfold withPixels pixels
  cases fb.backing with
  | heap old => rfl
  | mmio base old => rfl

theorem length_encodeRgba (fb : Framebuffer) (rgba : Rgba) : (fb.encodeRgba rgba).length = 4 := by
  unfold encodeRgba
  cases fb.format with
  | bgra8 => rfl
  | rgba8 => rfl

end Framebuffer

section Shapes

variable {width height stride : UInt32} {fb : Framebuffer}

theorem HasShape.withPixels (hfb : HasShape width height stride fb) {bytes : List UInt8}
    (hbytes : bytes.length = stride.toNat * height.toNat) :
    HasShape width height stride (fb.withPixels bytes) :=
  ⟨hfb.width_eq, hfb.height_eq, hfb.stride_eq, by rw [Framebuffer.pixels_withPixels, hbytes]⟩

theorem HasShape.wellFormed (hfb : HasShape width height stride fb)
    (hrows : 4 * width.toNat ≤ stride.toNat) : fb.WellFormed := by
  obtain ⟨rfl, rfl, rfl, hlength⟩ := hfb
  exact ⟨hrows, rfl, rfl, rfl, hlength⟩

theorem hasShape_fromMmio (mem : Memory) (base : UInt64) (format : PixelFormat) :
    HasShape width height stride (.fromMmio mem base width height stride format) :=
  ⟨rfl, rfl, rfl, Memory.length_bytesFrom _ _ _⟩

theorem area_lt (height stride : UInt32) : stride.toNat * height.toNat < usizeBound :=
  calc stride.toNat * height.toNat ≤ (2 ^ 32 - 1) * (2 ^ 32 - 1) :=
        Nat.mul_le_mul (Nat.le_sub_one_of_lt stride.toNat_lt) (Nat.le_sub_one_of_lt height.toNat_lt)
    _ < usizeBound := by decide

/-- The four bytes of a visible pixel are inside the slice. -/
theorem pixel_le (hrows : 4 * width.toNat ≤ stride.toNat) {x y : ℕ} (hx : x < width.toNat)
    (hy : y < height.toNat) :
    y * stride.toNat + 4 * x + 4 ≤ stride.toNat * height.toNat :=
  calc y * stride.toNat + 4 * x + 4 ≤ y * stride.toNat + stride.toNat := by omega
    _ = (y + 1) * stride.toNat := (Nat.succ_mul y stride.toNat).symm
    _ ≤ height.toNat * stride.toNat := Nat.mul_le_mul_right _ hy
    _ = stride.toNat * height.toNat := Nat.mul_comm _ _

/-- An offset that wraps at 32 bits stays inside. -/
theorem offset_le (hrows : 4 * width.toNat ≤ stride.toNat) {x y : UInt32} (hx : x < width)
    (hy : y < height) :
    (y * stride + x * 4).toNat + 4 ≤ stride.toNat * height.toNat := by
  have hpixel := pixel_le hrows (UInt32.lt_iff_toNat_lt.mp hx) (UInt32.lt_iff_toNat_lt.mp hy)
  have hwrap : (y * stride + x * 4).toNat ≤ y.toNat * stride.toNat + x.toNat * 4 := by
    rw [UInt32.toNat_add, UInt32.toNat_mul, UInt32.toNat_mul]
    exact (Nat.mod_le _ _).trans (Nat.add_le_add (Nat.mod_le _ _) (Nat.mod_le _ _))
  omega

end Shapes

/-! ## Writing one pixel -/

section Pixels

variable {buf out pix : List UInt8} {off n : ℕ}

theorem writePixel_eq_ok (hpix : pix.length = 4) (hwrite : writePixel buf off pix = .ok out) :
    off + 4 ≤ buf.length ∧ out = overwrite buf off pix ∧ out.length = buf.length := by
  obtain ⟨target, hslice, hcopy⟩ := bind_eq_ok.mp hwrite
  obtain ⟨_, hle, _⟩ := slice_eq_ok.mp hslice
  split at hcopy
  case isFalse => cases hcopy
  case isTrue =>
    cases hcopy
    exact ⟨hle, rfl, length_overwrite (by omega)⟩

theorem returns_writePixel (hpix : pix.length = 4) (hbuf : buf.length = n) (hoff : off + 4 ≤ n) :
    Returns (writePixel buf off pix) fun out => out.length = n := by
  subst hbuf
  have hle : off + pix.length ≤ buf.length := by omega
  have hcopy := copyFromSlice_of_le hle
  rw [hpix] at hcopy
  exact ⟨_, hcopy, length_overwrite hle⟩

end Pixels

/-! ## One operation -/

section Operations

variable {width height stride : UInt32} {fb : Framebuffer}

section

variable (hrows : 4 * width.toNat ≤ stride.toNat)

include hrows

theorem returns_putPixel (hfb : HasShape width height stride fb) (x y : UInt32) (rgba : Rgba) :
    Returns (fb.putPixel x y rgba) (HasShape width height stride) := by
  unfold Framebuffer.putPixel
  split
  case isTrue => exact returns_pure hfb
  case isFalse hvisible =>
    rw [hfb.width_eq, hfb.height_eq, not_or, UInt32.not_le, UInt32.not_le] at hvisible
    rw [hfb.stride_eq]
    have hoff := offset_le hrows hvisible.1 hvisible.2
    apply (returns_writePixel (fb.length_encodeRgba rgba) hfb.length_eq hoff).bind
    intro buf hbuf
    exact returns_pure (hfb.withPixels hbuf)

/-- One row of `clear`, with the invariant of its `while` loop. -/
theorem returns_clearRow {pix buf : List UInt8} (hpix : pix.length = 4)
    (hbuf : buf.length = stride.toNat * height.toNat) {y : ℕ} (hy : y < height.toNat) :
    Returns (loop (clearTurn pix (width.toNat * 4) (y * stride.toNat)) (width.toNat * 4 + 1)
      (0, buf))
      fun out => out.length = stride.toNat * height.toNat := by
  have hbody : ∀ state : ℕ × List UInt8,
      state.1 % 4 = 0 ∧ state.2.length = stride.toNat * height.toNat →
      Returns (clearTurn pix (width.toNat * 4) (y * stride.toNat) state)
        (TurnPost (fun state => state.1 % 4 = 0 ∧ state.2.length = stride.toNat * height.toNat)
          (fun state => width.toNat * 4 - state.1)
          (fun out => out.length = stride.toNat * height.toNat) state) := by
    rintro ⟨x, buf⟩ ⟨hx, hbuf⟩
    dsimp only at hx hbuf
    rw [clearTurn]
    split
    case isFalse => exact returns_pure hbuf
    case isTrue hlt =>
      have hpixel := pixel_le hrows (x := x / 4) (by omega) hy
      have harea := area_lt height stride
      have hoff : (y * stride.toNat + x) % usizeBound = y * stride.toNat + x :=
        Nat.mod_eq_of_lt (by omega)
      rw [hoff]
      apply (returns_writePixel hpix hbuf (by omega)).bind
      intro next hnext
      refine returns_pure ⟨⟨?_, hnext⟩, ?_⟩
      · show (x + 4) % 4 = 0
        omega
      · show width.toNat * 4 - (x + 4) < width.toNat * 4 - x
        omega
  exact returns_loop hbody _ _ ⟨rfl, hbuf⟩ (Nat.lt_succ_of_le (Nat.sub_le _ _))

theorem returns_clear (hfb : HasShape width height stride fb) (rgba : Rgba) :
    Returns (fb.clear rgba) (HasShape width height stride) := by
  have hpix := fb.length_encodeRgba rgba
  have hfold : Returns ((List.range height.toNat).foldlM (fun buf y =>
      loop (clearTurn (fb.encodeRgba rgba) (width.toNat * 4) (y * stride.toNat))
        (width.toNat * 4 + 1) (0, buf)) fb.pixels)
      fun out => out.length = stride.toNat * height.toNat := by
    refine returns_foldlM ?_ hfb.length_eq
    intro y hy buf hbuf
    exact returns_clearRow hrows hpix hbuf (List.mem_range.mp hy)
  rw [Framebuffer.clear, hfb.width_eq, hfb.height_eq, hfb.stride_eq]
  apply hfold.bind
  intro buf hbuf
  exact returns_pure (hfb.withPixels hbuf)

end

theorem toNat_min (a b : UInt32) : (min a b).toNat = min a.toNat b.toNat := by
  rcases le_total a b with hle | hge
  · rw [min_eq_left hle, min_eq_left (UInt32.le_iff_toNat_le.mp hle)]
  · rw [min_eq_right hge, min_eq_right (UInt32.le_iff_toNat_le.mp hge)]

theorem toNat_add_of_le {a b bound : UInt32} (hle : a.toNat + b.toNat ≤ bound.toNat) :
    (a + b).toNat = a.toNat + b.toNat := by
  rw [UInt32.toNat_add, Nat.mod_eq_of_lt (lt_of_le_of_lt hle bound.toNat_lt)]

theorem ofNat_lt_of_mem_range {bound : UInt32} {n : ℕ} (hn : n ∈ List.range bound.toNat) :
    UInt32.ofNat n < bound := by
  have hlt := List.mem_range.mp hn
  rwa [UInt32.lt_iff_toNat_lt, UInt32.toNat_ofNat_of_lt' (hlt.trans bound.toNat_lt)]

theorem returns_fillRect (hrows : 4 * width.toNat ≤ stride.toNat)
    (hfb : HasShape width height stride fb) {x y w h : UInt32}
    (hw : x.toNat + w.toNat ≤ width.toNat) (hh : y.toNat + h.toNat ≤ height.toNat) (rgba : Rgba) :
    Returns (fb.fillRect x y w h rgba) (HasShape width height stride) := by
  have hpix := fb.length_encodeRgba rgba
  have hyEnd : (min (y + h) height).toNat = y.toNat + h.toNat := by
    rw [toNat_min, toNat_add_of_le hh, Nat.min_eq_left hh]
  have hxEnd : (min (x + w) width - x).toNat = w.toNat := by
    have hmin : (min (x + w) width).toNat = x.toNat + w.toNat := by
      rw [toNat_min, toNat_add_of_le hw, Nat.min_eq_left hw]
    rw [UInt32.toNat_sub_of_le _ _ (UInt32.le_iff_toNat_le.mpr (by omega)), hmin,
      Nat.add_sub_cancel_left]
  have hrow : ∀ yy, yy < height.toNat → ∀ buf : List UInt8,
      buf.length = stride.toNat * height.toNat →
      Returns ((List.range w.toNat).foldlM (fun buf xx =>
        writePixel buf (((yy * stride.toNat + x.toNat * 4) % usizeBound + xx * 4) % usizeBound)
          (fb.encodeRgba rgba)) buf) fun out => out.length = stride.toNat * height.toNat := by
    intro yy hyy buf hbuf
    refine returns_foldlM ?_ hbuf
    intro xx hxx buf hbuf
    have hlt := List.mem_range.mp hxx
    have hpixel := pixel_le hrows (x := x.toNat + xx) (by omega) hyy
    have harea := area_lt height stride
    rw [Nat.mod_eq_of_lt (show yy * stride.toNat + x.toNat * 4 < usizeBound by omega),
      Nat.mod_eq_of_lt (show yy * stride.toNat + x.toNat * 4 + xx * 4 < usizeBound by omega)]
    exact returns_writePixel hpix hbuf (by omega)
  have hfold : Returns ((List.range' y.toNat h.toNat).foldlM (fun buf yy =>
      (List.range w.toNat).foldlM (fun buf xx =>
        writePixel buf (((yy * stride.toNat + x.toNat * 4) % usizeBound + xx * 4) % usizeBound)
          (fb.encodeRgba rgba)) buf) fb.pixels)
      fun out => out.length = stride.toNat * height.toNat := by
    refine returns_foldlM ?_ hfb.length_eq
    intro yy hyy
    have hmem := List.mem_range'_1.mp hyy
    exact hrow yy (by omega)
  rw [Framebuffer.fillRect, hfb.width_eq, hfb.height_eq, hfb.stride_eq]
  simp only [hxEnd, hyEnd, Nat.add_sub_cancel_left]
  apply hfold.bind
  intro buf hbuf
  exact returns_pure (hfb.withPixels hbuf)

end Operations

/-! ## Rows that do not fit -/

section Narrow

variable {width height stride : UInt32} {fb : Framebuffer}

/-- A row that was cleared lies inside the slice, all of it. -/
theorem clearRow_eq_ok {pix : List UInt8} (hpix : pix.length = 4) {widthBytes rowStart : ℕ}
    (fuel : ℕ) : ∀ {x : ℕ} {buf out : List UInt8},
      loop (clearTurn pix widthBytes rowStart) fuel (x, buf) = .ok out →
        out.length = buf.length ∧
          ∀ k, x + 4 * k < widthBytes → (rowStart + (x + 4 * k)) % usizeBound + 4 ≤ buf.length := by
  induction fuel with
  | zero =>
    intro x buf out hloop
    cases hloop
  | succ fuel ih =>
    intro x buf out hloop
    obtain ⟨turn, hturn, hrest⟩ := bind_eq_ok.mp hloop
    rw [clearTurn] at hturn
    split at hturn
    case isFalse hend =>
      cases hturn
      cases hrest
      exact ⟨rfl, fun k hk => absurd hk (by omega)⟩
    case isTrue =>
      obtain ⟨next, hwrite, hagain⟩ := bind_eq_ok.mp hturn
      cases hagain
      obtain ⟨hfirst, _, hlength⟩ := writePixel_eq_ok hpix hwrite
      obtain ⟨hout, hafter⟩ := ih hrest
      refine ⟨hout.trans hlength, ?_⟩
      intro k hk
      cases k with
      | zero => exact hfirst
      | succ k =>
        have hpixel := hafter k (by omega)
        rwa [hlength, Nat.add_assoc x 4, Nat.add_comm 4, ← Nat.mul_succ] at hpixel

/-- If `clear` returns on a screen with a row, its rows fit: the first pixel behind the
stride in the last row is outside the slice. -/
theorem rows_of_clear (hfb : HasShape width height stride fb) (hheight : 0 < height) {rgba : Rgba}
    {out : Framebuffer} (hclear : fb.clear rgba = .ok out) : 4 * width.toNat ≤ stride.toNat := by
  have hpix := fb.length_encodeRgba rgba
  obtain ⟨n, hn⟩ : ∃ n, height.toNat = n + 1 :=
    Nat.exists_eq_succ_of_ne_zero (UInt32.lt_iff_toNat_lt.mp hheight).ne'
  rw [Framebuffer.clear, hfb.width_eq, hfb.height_eq, hfb.stride_eq, hn, List.range_succ,
    List.foldlM_append] at hclear
  obtain ⟨cleared, hrows, _⟩ := bind_eq_ok.mp hclear
  obtain ⟨buf, hfront, hlast⟩ := bind_eq_ok.mp hrows
  obtain ⟨_, hlast, _⟩ := bind_eq_ok.mp hlast
  -- the rows before the last one left the length alone
  have hlength : buf.length = stride.toNat * height.toNat := by
    have hends : Ends ((List.range n).foldlM (fun buf y =>
        loop (clearTurn (fb.encodeRgba rgba) (width.toNat * 4) (y * stride.toNat))
          (width.toNat * 4 + 1) (0, buf)) fb.pixels)
        (fun buf => buf.length = stride.toNat * height.toNat) fun _ => True := by
      refine ends_foldlM ?_ hfb.length_eq
      intro y _ buf hbuf
      cases hrow : loop (clearTurn (fb.encodeRgba rgba) (width.toNat * 4) (y * stride.toNat))
          (width.toNat * 4 + 1) (0, buf) with
      | error fault => trivial
      | ok next => exact (clearRow_eq_ok hpix _ hrow).1.trans hbuf
    rw [hfront] at hends
    exact hends
  by_contra hnarrow
  have hinside := (clearRow_eq_ok hpix _ hlast).2 (stride.toNat / 4) (by omega)
  have harea := area_lt height stride
  have hsplit : stride.toNat * height.toNat = n * stride.toNat + stride.toNat := by
    rw [hn, Nat.mul_succ, Nat.mul_comm]
  rw [Nat.mod_eq_of_lt (by omega), hlength] at hinside
  omega

end Narrow

/-! ## Composing -/

section Composing

variable {width height stride : UInt32} {dst src : Framebuffer}

/-- An access to a layer may fail only if the layer is not well formed. -/
theorem ends_on_layer {α : Type} {x : Checked α} {post : α → Prop} {p : Prop}
    (hpost : ∀ a, x = .ok a → post a) (hfine : p → ∃ a, x = .ok a) :
    Ends (on .layer x) post fun fault => fault.1 = .layer ∧ ¬p := by
  cases hx : x with
  | ok a => exact hpost a hx
  | error fault =>
    refine ⟨rfl, fun hp => ?_⟩
    obtain ⟨a, ha⟩ := hfine hp
    rw [hx] at ha
    cases ha

section

variable (hrows : 4 * width.toNat ≤ stride.toNat)

include hrows

section

variable (hdst : HasShape width height stride dst)

include hdst

theorem ends_blitPixel {x dy : Int32} {sx sy : UInt32} (hsx : sx < src.width)
    (hsy : sy < src.height) (hdy : dy.toUInt32 < height) {buf : List UInt8}
    (hbuf : buf.length = stride.toNat * height.toNat) :
    Ends (blitPixel dst src x dy sy buf sx) (fun out => out.length = stride.toNat * height.toNat)
      fun fault => fault.1 = .layer ∧ ¬src.WellFormed := by
  have hsource : src.WellFormed → (sy * src.stride + sx * 4).toNat + 4 ≤ src.pixels.length := by
    intro hsrc
    rw [hsrc.shape.length_eq]
    exact offset_le hsrc.rows hsx hsy
  unfold blitPixel
  dsimp only
  split
  case isTrue => exact ends_pure hbuf
  case isFalse hvisible =>
    rw [hdst.width_eq, not_or, UInt32.not_le] at hvisible
    rw [hdst.stride_eq]
    have hoff := offset_le hrows hvisible.2 hdy
    refine Ends.bind (ends_on_layer (fun _ _ => trivial) fun hsrc => ?_) ?_
    · have hle := hsource hsrc
      exact ⟨_, index_of_lt (by omega)⟩
    intro alpha _
    split
    case isTrue => exact ends_pure hbuf
    case isFalse =>
      have hpixel : ∀ pix, slice src.pixels (sy * src.stride + sx * 4).toNat
          ((sy * src.stride + sx * 4).toNat + 4) = .ok pix → pix.length = 4 := by
        intro pix hslice
        obtain ⟨_, hle, rfl⟩ := slice_eq_ok.mp hslice
        rw [List.length_take, List.length_drop]
        omega
      refine (ends_on_layer hpixel fun hsrc => ?_).bind fun pix hpix => ?_
      · exact ⟨_, slice_of_le (Nat.le_add_right _ _) (hsource hsrc)⟩
      · exact (returns_writePixel hpix hbuf hoff).ends _

theorem ends_blitRow (x y : Int32) {sy : UInt32} (hsy : sy < src.height) {buf : List UInt8}
    (hbuf : buf.length = stride.toNat * height.toNat) :
    Ends (blitRow dst src x y buf sy) (fun out => out.length = stride.toNat * height.toNat)
      fun fault => fault.1 = .layer ∧ ¬src.WellFormed := by
  unfold blitRow
  dsimp only
  split
  case isTrue => exact ends_pure hbuf
  case isFalse hvisible =>
    rw [hdst.height_eq, not_or, UInt32.not_le] at hvisible
    refine ends_foldlM ?_ hbuf
    intro sx hsx buf hbuf
    exact ends_blitPixel hrows hdst (ofNat_lt_of_mem_range hsx) hsy hvisible.2 hbuf

/-- Whatever the layer, `blit` indexes the target inside its slice. -/
theorem ends_blit (x y : Int32) :
    Ends (blit dst src x y) (HasShape width height stride)
      fun fault => fault.1 = .layer ∧ ¬src.WellFormed := by
  have hfold : Ends ((List.range src.height.toNat).foldlM (fun buf sy =>
      blitRow dst src x y buf (UInt32.ofNat sy)) dst.pixels)
      (fun out => out.length = stride.toNat * height.toNat)
      fun fault => fault.1 = .layer ∧ ¬src.WellFormed := by
    refine ends_foldlM ?_ hdst.length_eq
    intro sy hsy buf hbuf
    exact ends_blitRow hrows hdst x y (ofNat_lt_of_mem_range hsy) hbuf
  apply hfold.bind
  intro buf hbuf
  exact ends_pure (hdst.withPixels hbuf)

end

theorem ends_render {monitor : Monitor} (hmonitor : HasShape width height stride monitor.fb)
    (c : Compositor) :
    Ends (c.render monitor) (fun after => HasShape width height stride after.fb) fun fault =>
      fault.1 = .layer ∧ ∃ layer ∈ c.layers, ¬layer.fb.WellFormed := by
  unfold Compositor.render
  apply ((returns_clear hrows hmonitor c.background).ends _).bind
  intro cleared hcleared
  refine Ends.bind (ends_foldlM ?_ hcleared) fun target htarget => ends_pure htarget
  intro layer hlayer target htarget
  refine (ends_blit hrows htarget layer.x layer.y).mono (fun _ h => h) ?_
  exact fun fault hfault => ⟨hfault.1, layer, List.mem_mergeSort.mp hlayer, hfault.2⟩

end

end Composing

/-! ## Drawings -/

/-- A way to draw on a monitor. -/
inductive Draw where
  | clear (rgba : Rgba)
  | putPixel (x y : UInt32) (rgba : Rgba)
  | fillRect (x y w h : UInt32) (rgba : Rgba)
  | render (compositor : Compositor)

/-- `with_framebuffer`, for an operation of the framebuffer. -/
def Monitor.withFramebuffer (monitor : Monitor) (f : Framebuffer → Checked Framebuffer) :
    Drawing Monitor := do
  let fb ← on .target (f monitor.fb)
  pure { monitor with fb }

namespace Draw

def apply (monitor : Monitor) : Draw → Drawing Monitor
  | clear rgba => monitor.withFramebuffer fun fb => fb.clear rgba
  | putPixel x y rgba => monitor.withFramebuffer fun fb => fb.putPixel x y rgba
  | fillRect x y w h rgba => monitor.withFramebuffer fun fb => fb.fillRect x y w h rgba
  | render compositor => compositor.render monitor

/-- A rectangle lies inside the screen. -/
def Inside (width height : UInt32) : Draw → Prop
  | fillRect x y w h _ => x.toNat + w.toNat ≤ width.toNat ∧ y.toNat + h.toNat ≤ height.toNat
  | clear _ | putPixel _ _ _ | render _ => True

/-- The layers that are composed. -/
def layers : Draw → List Layer
  | render compositor => compositor.layers
  | clear _ | putPixel _ _ _ | fillRect _ _ _ _ _ => []

end Draw

/-- One drawing after the other. -/
def drawAll (draws : List Draw) (monitor : Monitor) : Drawing Monitor :=
  draws.foldlM Draw.apply monitor

section Drawings

variable {width height stride : UInt32} {monitor : Monitor}

theorem ends_withFramebuffer {f : Framebuffer → Checked Framebuffer}
    {excuse : Surface × Fault → Prop}
    (hf : Returns (f monitor.fb) (HasShape width height stride)) :
    Ends (monitor.withFramebuffer f) (fun after => HasShape width height stride after.fb) excuse :=
  (hf.ends _).bind fun _ hfb => ends_pure hfb

theorem ends_apply (hrows : 4 * width.toNat ≤ stride.toNat)
    (hmonitor : HasShape width height stride monitor.fb) {draw : Draw}
    (hinside : draw.Inside width height) :
    Ends (draw.apply monitor) (fun after => HasShape width height stride after.fb) fun fault =>
      fault.1 = .layer ∧ ∃ layer ∈ draw.layers, ¬layer.fb.WellFormed := by
  cases draw with
  | clear rgba =>
    rw [Draw.apply]
    exact ends_withFramebuffer (returns_clear hrows hmonitor rgba)
  | putPixel x y rgba =>
    rw [Draw.apply]
    exact ends_withFramebuffer (returns_putPixel hrows hmonitor x y rgba)
  | fillRect x y w h rgba =>
    rw [Draw.apply]
    exact ends_withFramebuffer (returns_fillRect hrows hmonitor hinside.1 hinside.2 rgba)
  | render compositor => exact ends_render hrows hmonitor compositor

/-- Drawings inside the screen, one after the other, index the screen inside its slice.
A fault is one of a layer that is not well formed. -/
theorem drawAll_ends (hrows : 4 * width.toNat ≤ stride.toNat)
    (hmonitor : HasShape width height stride monitor.fb) {draws : List Draw}
    (hinside : ∀ draw ∈ draws, draw.Inside width height) :
    Ends (drawAll draws monitor) (fun after => HasShape width height stride after.fb) fun fault =>
      fault.1 = .layer ∧ ∃ draw ∈ draws, ∃ layer ∈ draw.layers, ¬layer.fb.WellFormed := by
  refine ends_foldlM ?_ hmonitor
  intro draw hdraw monitor hmonitor
  refine (ends_apply hrows hmonitor (hinside draw hdraw)).mono (fun _ h => h) ?_
  exact fun fault hfault => ⟨hfault.1, draw, hdraw, hfault.2⟩

end Drawings

end Hyperion.Display
