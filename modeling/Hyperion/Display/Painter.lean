import Hyperion.Display.Pictures

/-!
# The painter's algorithm

`render` clears the screen and draws the layers over each other, those of smaller `z` first and
those of equal `z` in the order they were pushed.  A layer draws the pixels it covers whose alpha
byte is not zero (`Layer.picture`), wherever its edges lie relative to the screen.  So a visible
pixel is the one of the topmost layer that has one there, and the background if there is none
(`render_topmost`).

Pixels are copied as bytes.  What is copied to a screen of another format shows another colour,
unless red and blue are equal (`render_sameColour_iff`).
-/

namespace Hyperion.Display

open Hyperion.Lib

/-! ## Layers as pictures -/

/-- A well formed framebuffer whose offsets fit in `u32`. -/
structure Framebuffer.FitsU32 (fb : Framebuffer) : Prop where
  wellFormed : fb.WellFormed
  small : fb.stride.toNat * fb.height.toNat < 2 ^ 32

/-- The pixel of a framebuffer that is drawn, unless its alpha byte is zero. -/
def Framebuffer.solidAt (fb : Framebuffer) (p : ℕ × ℕ) : Option (List UInt8) :=
  if (fb.pixelAt p).getD 3 0 = 0 then none else some (fb.pixelAt p)

namespace Layer

/-- The pixel of the layer that lies over the pixel `p` of the target. -/
def sourceAt (layer : Layer) (p : ℕ × ℕ) : Option (ℕ × ℕ) :=
  let sx := (p.1 : ℤ) - layer.x.toInt
  let sy := (p.2 : ℤ) - layer.y.toInt
  if 0 ≤ sx ∧ sx < layer.fb.width.toNat ∧ 0 ≤ sy ∧ sy < layer.fb.height.toNat then
    some (sx.toNat, sy.toNat)
  else none

/-- What the layer shows on the target. -/
def picture (layer : Layer) : Picture (ℕ × ℕ) (List UInt8) :=
  fun p => (layer.sourceAt p).bind layer.fb.solidAt

theorem sourceAt_eq_some {layer : Layer} {p : ℕ × ℕ} {sx sy : ℕ} :
    layer.sourceAt p = some (sx, sy) ↔ sx < layer.fb.width.toNat ∧ sy < layer.fb.height.toNat ∧
      (p.1 : ℤ) = layer.x.toInt + sx ∧ (p.2 : ℤ) = layer.y.toInt + sy := by
  rw [sourceAt]
  split
  case isTrue hinside =>
    rw [Option.some_inj, Prod.mk.injEq]
    omega
  case isFalse houtside =>
    constructor
    · intro hnone
      cases hnone
    · intro hcovered
      omega

/-- What one turn of the inner loop of `blit` shows. -/
def dot (layer : Layer) (sy sx : ℕ) : Picture (ℕ × ℕ) (List UInt8) := fun p =>
  if (p.1 : ℤ) = layer.x.toInt + sx ∧ (p.2 : ℤ) = layer.y.toInt + sy then
    layer.fb.solidAt (sx, sy)
  else none

/-- The dots of a layer are its picture. -/
theorem stack_dot (layer : Layer) :
    Picture.stack (fun sy => .stack (layer.dot sy) (List.range layer.fb.width.toNat))
      (List.range layer.fb.height.toNat) = layer.picture := by
  funext p
  cases hsource : layer.sourceAt p with
  | none =>
    rw [picture, hsource, Option.bind_none, Picture.stack_eq_none]
    intro sy hsy
    rw [Picture.stack_eq_none]
    intro sx hsx
    refine if_neg fun hat => ?_
    have hsome := sourceAt_eq_some.mpr ⟨List.mem_range.mp hsx, List.mem_range.mp hsy, hat⟩
    rw [hsource] at hsome
    cases hsome
  | some q =>
    obtain ⟨sx, sy⟩ := q
    obtain ⟨hsx, hsy, hx, hy⟩ := sourceAt_eq_some.mp hsource
    rw [picture, hsource, Option.bind_some, Picture.stack_eq_of_only (List.mem_range.mpr hsy),
      Picture.stack_eq_of_only (List.mem_range.mpr hsx), dot, if_pos ⟨hx, hy⟩]
    · intro sx' _ hne
      exact if_neg fun hat => hne (by omega)
    · intro sy' _ hne
      rw [Picture.stack_eq_none]
      intro sx' _
      exact if_neg fun hat => hne (by omega)

end Layer

/-! ## `blit` -/

section Blit

variable {dst : Framebuffer} {layer : Layer}

variable {fb : Framebuffer}

theorem Framebuffer.FitsU32.bounds (hfb : fb.FitsU32) {p : ℕ × ℕ}
    (hp : (fb.raster hfb.wellFormed.rows).Visible p) :
    fb.width.toNat < 2 ^ 30 ∧ fb.height.toNat < 2 ^ 30 := by
  have hsmall := hfb.small
  have hrows : 4 * fb.width.toNat ≤ fb.stride.toNat := hfb.wellFormed.rows
  have hwidth : p.1 < fb.width.toNat := hp.1
  have hheight : p.2 < fb.height.toNat := hp.2
  have hwide : fb.stride.toNat * 1 ≤ fb.stride.toNat * fb.height.toNat :=
    Nat.mul_le_mul_left _ (by omega)
  have htall : 4 * fb.height.toNat ≤ fb.stride.toNat * fb.height.toNat :=
    Nat.mul_le_mul_right _ (by omega)
  omega

theorem Framebuffer.FitsU32.offset_lt (hfb : fb.FitsU32) {p : ℕ × ℕ}
    (hp : (fb.raster hfb.wellFormed.rows).Visible p) :
    p.2 * fb.stride.toNat + 4 * p.1 < 2 ^ 32 := by
  have hle := hfb.wellFormed.pixel_le hp
  have hsmall := hfb.small
  rw [hfb.wellFormed.shape.length_eq] at hle
  omega

/-- The 32-bit offset of a pixel is its offset. -/
theorem toNat_offset (hfb : fb.FitsU32) {x y : UInt32}
    (hp : (fb.raster hfb.wellFormed.rows).Visible (x.toNat, y.toNat)) :
    (y * fb.stride + x * 4).toNat = y.toNat * fb.stride.toNat + 4 * x.toNat :=
  toNat_pixelOffset (hfb.offset_lt hp)

/-- What `blit` does not skip is on the screen.  A sum that wraps is negative, so it is
skipped as what lies behind the far edge should be. -/
theorem onScreen_iff {x : Int32} {s bound : UInt32} (hs : s.toNat < 2 ^ 30)
    (hbound : bound.toNat < 2 ^ 30) :
    ¬(x + s.toInt32 < 0 ∨ bound ≤ (x + s.toInt32).toUInt32) ↔
      0 ≤ x.toInt + s.toNat ∧ x.toInt + s.toNat < bound.toNat := by
  have hzero : (0 : Int32).toInt = 0 := rfl
  have hsum := toInt_add_toInt32 x (s := s) (by omega)
  rw [not_or, UInt32.not_le, Int32.lt_iff_toInt_lt, hzero, not_lt, UInt32.lt_iff_toNat_lt]
  by_cases hneg : (x + s.toInt32).toInt < 0
  · omega
  · have hunsigned := toNat_toUInt32 (Int32.le_iff_toInt_le.mpr (not_lt.mp hneg))
    omega

theorem toNat_onScreen {x : Int32} {s bound : UInt32} (hs : s.toNat < 2 ^ 30)
    (hvisible : ¬(x + s.toInt32 < 0 ∨ bound ≤ (x + s.toInt32).toUInt32)) :
    ((x + s.toInt32).toUInt32.toNat : ℤ) = x.toInt + s.toNat := by
  have hsum := toInt_add_toInt32 x (s := s) (by omega)
  have hnonneg := Int32.not_lt.mp (not_or.mp hvisible).1
  have hzero : 0 ≤ (x + s.toInt32).toInt := Int32.le_iff_toInt_le.mp hnonneg
  rw [toNat_toUInt32 hnonneg]
  omega

theorem slice_pixelAt (hfb : fb.WellFormed) {p : ℕ × ℕ} (hp : (fb.raster hfb.rows).Visible p) :
    slice fb.pixels (p.2 * fb.stride.toNat + 4 * p.1) (p.2 * fb.stride.toNat + 4 * p.1 + 4) =
      .ok (fb.pixelAt p) := by
  rw [slice_of_le (Nat.le_add_right _ _) (hfb.pixel_le hp), Nat.add_sub_cancel_left]
  rfl

theorem index_alpha (hfb : fb.WellFormed) {p : ℕ × ℕ} (hp : (fb.raster hfb.rows).Visible p) :
    index fb.pixels (p.2 * fb.stride.toNat + 4 * p.1 + 3) = .ok ((fb.pixelAt p).getD 3 0) := by
  have hlt : p.2 * fb.stride.toNat + 4 * p.1 + 3 < fb.pixels.length := hfb.pixel_le hp
  rw [index_of_lt hlt, Framebuffer.pixelAt, bytesAt, List.getD_eq_getElem?_getD,
    List.getElem?_take_of_lt (by decide), List.getElem?_drop, List.getElem?_eq_getElem hlt]
  rfl

theorem ends_blitPixel_painted (hdst : dst.FitsU32) (hlayer : layer.fb.FitsU32) {sx sy : UInt32}
    (hsx : sx < layer.fb.width) (hsy : sy < layer.fb.height)
    (hrow : ¬(layer.y + sy.toInt32 < 0 ∨ dst.height ≤ (layer.y + sy.toInt32).toUInt32))
    {buf : List UInt8} (hbuf : buf.length = dst.pixels.length) :
    Ends (blitPixel dst layer.fb layer.x (layer.y + sy.toInt32) sy buf sx)
      ((dst.raster hdst.wellFormed.rows).Painted (layer.dot sy.toNat sx.toNat) buf)
      fun _ => False := by
  rw [UInt32.lt_iff_toNat_lt] at hsx hsy
  have hsource : (layer.fb.raster hlayer.wellFormed.rows).Visible (sx.toNat, sy.toNat) := ⟨hsx, hsy⟩
  have hsmall := hlayer.bounds hsource
  unfold blitPixel
  dsimp only
  split
  case isTrue hskip =>
    refine ends_pure ((Raster.painted_none buf).congr ?_)
    intro p hp
    have hcolumn : p.1 < dst.width.toNat := hp.1
    have hwidth := (hdst.bounds hp).1
    refine (if_neg fun hat => (onScreen_iff (by omega) hwidth).mpr ?_ hskip).symm
    omega
  case isFalse hvisible =>
    have hx := toNat_onScreen (by omega) hvisible
    have hy := toNat_onScreen (by omega) hrow
    rw [not_or, UInt32.not_le, UInt32.lt_iff_toNat_lt] at hvisible hrow
    generalize (layer.x + sx.toInt32).toUInt32 = dx at hx hvisible ⊢
    generalize (layer.y + sy.toInt32).toUInt32 = dy at hy hrow ⊢
    have htarget : (dst.raster hdst.wellFormed.rows).Visible (dx.toNat, dy.toNat) :=
      ⟨hvisible.2, hrow.2⟩
    -- the dot is the one pixel written, or nothing
    have hdot : ∀ p : ℕ × ℕ, layer.dot sy.toNat sx.toNat p =
        if p = (dx.toNat, dy.toNat) then layer.fb.solidAt (sx.toNat, sy.toNat) else none := by
      intro p
      rw [Layer.dot]
      congr 1
      rw [Prod.ext_iff]
      exact propext (by omega)
    rw [toNat_offset hlayer hsource, index_alpha hlayer.wellFormed hsource,
      slice_pixelAt hlayer.wellFormed hsource]
    change Ends (if (layer.fb.pixelAt (sx.toNat, sy.toNat)).getD 3 0 = 0 then pure buf
      else on .target (writePixel buf _ (layer.fb.pixelAt (sx.toNat, sy.toNat)))) _ _
    split
    case isTrue hclear =>
      refine ends_pure ((Raster.painted_none buf).congr ?_)
      intro p _
      rw [hdot, Framebuffer.solidAt, if_pos hclear, ite_self]
    case isFalse hsolid =>
      have hlength := length_pixelAt hlayer.wellFormed hsource
      have hwrite := returns_writePixel_painted hdst.wellFormed hbuf hlength htarget
        (toNat_offset hdst htarget)
      refine (hwrite.mono fun out hout => hout.congr ?_).ends _
      intro p _
      rw [hdot, Framebuffer.solidAt, if_neg hsolid, Picture.single]

theorem ends_blitRow_painted (hdst : dst.FitsU32) (hlayer : layer.fb.FitsU32) {sy : UInt32}
    (hsy : sy < layer.fb.height) {buf : List UInt8} (hbuf : buf.length = dst.pixels.length) :
    Ends (blitRow dst layer.fb layer.x layer.y buf sy)
      ((dst.raster hdst.wellFormed.rows).Painted
        (.stack (layer.dot sy.toNat) (List.range layer.fb.width.toNat)) buf) fun _ => False := by
  unfold blitRow
  dsimp only
  split
  case isTrue hskip =>
    refine ends_pure ((Raster.painted_none buf).congr ?_)
    intro p hp
    symm
    rw [Picture.stack_eq_none]
    intro sx hsx
    have hlt := UInt32.lt_iff_toNat_lt.mp hsy
    have hsource : (layer.fb.raster hlayer.wellFormed.rows).Visible (sx, sy.toNat) :=
      ⟨List.mem_range.mp hsx, hlt⟩
    have hsmall := (hlayer.bounds hsource).2
    have hrow : p.2 < dst.height.toNat := hp.2
    refine if_neg fun hat => (onScreen_iff (by omega) (hdst.bounds hp).2).mpr ?_ hskip
    omega
  case isFalse hvisible =>
    refine Picture.ends_foldlM_stack
      (R := fun picture => (dst.raster hdst.wellFormed.rows).Painted picture buf)
      (Raster.painted_none buf) ?_
    intro sx hsx below mid hmid
    have hsame : (UInt32.ofNat sx).toNat = sx :=
      UInt32.toNat_ofNat_of_lt' ((List.mem_range.mp hsx).trans layer.fb.width.toNat_lt)
    have hpixel := ends_blitPixel_painted hdst hlayer (ofNat_lt_of_mem_range hsx) hsy hvisible
      (hmid.length_eq.trans hbuf)
    rw [hsame] at hpixel
    exact hpixel.mono (fun out hout => hmid.trans hout) fun _ h => h

/-- `blit` draws the picture of the layer. -/
theorem drawn_blit (hdst : dst.FitsU32) (hlayer : layer.fb.FitsU32) :
    Ends (blit dst layer.fb layer.x layer.y) (dst.Drawn hdst.wellFormed.rows layer.picture)
      fun _ => False := by
  have hfold : Ends ((List.range layer.fb.height.toNat).foldlM (fun buf sy =>
      blitRow dst layer.fb layer.x layer.y buf (UInt32.ofNat sy)) dst.pixels)
      ((dst.raster hdst.wellFormed.rows).Painted
        (.stack (fun sy => .stack (layer.dot sy) (List.range layer.fb.width.toNat))
          (List.range layer.fb.height.toNat)) dst.pixels) fun _ => False := by
    refine Picture.ends_foldlM_stack
      (R := fun picture => (dst.raster hdst.wellFormed.rows).Painted picture dst.pixels)
      (Raster.painted_none _) ?_
    intro sy hsy below mid hmid
    have hsame : (UInt32.ofNat sy).toNat = sy :=
      UInt32.toNat_ofNat_of_lt' ((List.mem_range.mp hsy).trans layer.fb.height.toNat_lt)
    have hrow := ends_blitRow_painted hdst hlayer (ofNat_lt_of_mem_range hsy) hmid.length_eq
    rw [hsame] at hrow
    exact hrow.mono (fun out hout => hmid.trans hout) fun _ h => h
  rw [layer.stack_dot] at hfold
  unfold blit
  apply hfold.bind
  exact fun buf hbuf => ends_pure (drawn_withPixels hbuf)

end Blit

/-! ## `render` -/

section Render

variable {monitor : Monitor} {c : Compositor}

/-- The order in which layers are drawn. -/
def Layer.drawnBefore (a b : Layer) : Bool := a.z ≤ b.z

theorem drawnBefore_trans (a b c : Layer) (hab : a.drawnBefore b = true)
    (hbc : b.drawnBefore c = true) : a.drawnBefore c = true := by
  simp only [Layer.drawnBefore, decide_eq_true_eq] at *
  exact Int32.le_trans hab hbc

theorem drawnBefore_total (a b : Layer) : (a.drawnBefore b || b.drawnBefore a) = true := by
  simp only [Layer.drawnBefore, Bool.or_eq_true, decide_eq_true_eq]
  exact Int32.le_total a.z b.z

theorem Framebuffer.Drawn.fitsU32 {fb out : Framebuffer} (hfb : fb.FitsU32) {hrows : fb.RowsFit}
    {picture : Picture (ℕ × ℕ) (List UInt8)} (hdrawn : fb.Drawn hrows picture out) :
    out.FitsU32 := by
  refine ⟨hdrawn.wellFormed hfb.wellFormed, ?_⟩
  rw [hdrawn.same]
  exact hfb.small

/-- What a composed screen shows: the layers over the background, in the order of the sort. -/
def Compositor.picture (c : Compositor) (fb : Framebuffer) : Picture (ℕ × ℕ) (List UInt8) :=
  .atop (.stack Layer.picture (c.layers.mergeSort Layer.drawnBefore))
    fun _ => some (fb.encodeRgba c.background)

theorem drawn_render (hmonitor : monitor.fb.FitsU32)
    (hlayers : ∀ layer ∈ c.layers, layer.fb.FitsU32) :
    ∃ target, c.render monitor = .ok { monitor with fb := target } ∧
      monitor.fb.Drawn hmonitor.wellFormed.rows (c.picture monitor.fb) target := by
  obtain ⟨cleared, hclear, hcleared⟩ := drawn_clear hmonitor.wellFormed c.background
  have hfits : cleared.FitsU32 := hcleared.fitsU32 hmonitor
  have hfold : Ends ((c.layers.mergeSort Layer.drawnBefore).foldlM (fun target layer =>
      blit target layer.fb layer.x layer.y) cleared)
      (cleared.Drawn hfits.wellFormed.rows
        (.stack Layer.picture (c.layers.mergeSort Layer.drawnBefore))) fun _ => False := by
    refine Picture.ends_foldlM_stack (R := cleared.Drawn hfits.wellFormed.rows)
      (drawn_none _) ?_
    intro layer hlayer below mid hmid
    have hblit := drawn_blit (hmid.fitsU32 hfits) (hlayers layer (List.mem_mergeSort.mp hlayer))
    exact hblit.mono (fun out hout => hmid.trans hout) fun _ h => h
  obtain ⟨target, hblits, htarget⟩ := hfold.exists_ok
  refine ⟨target, ?_, hcleared.trans htarget⟩
  refine bind_eq_ok.mpr ⟨cleared, by rw [hclear]; rfl, ?_⟩
  exact bind_eq_ok.mpr ⟨target, hblits, rfl⟩

/-- Of the layers that have a pixel at `p`, the topmost one: a greater `z` is above a smaller one,
and of equal ones the layer pushed later is above. -/
structure Topmost (layers : List Layer) (p : ℕ × ℕ) (i : ℕ) (layer : Layer) : Prop where
  pushed : layers[i]? = some layer
  covers : layer.picture p ≠ none
  above : ∀ (j : ℕ) (other : Layer), layers[j]? = some other → other.picture p ≠ none →
    other.z < layer.z ∨ other.z = layer.z ∧ j ≤ i

/-- What is seen at a pixel. -/
inductive Shown (layers : List Layer) (background : List UInt8) (p : ℕ × ℕ) : List UInt8 → Prop
  | layer {i : ℕ} {layer : Layer} {pix : List UInt8} (htop : Topmost layers p i layer)
      (hpix : layer.picture p = some pix) : Shown layers background p pix
  | background (hnone : ∀ layer ∈ layers, layer.picture p = none) :
      Shown layers background p background

theorem below_of_zipIdxLE {a b : Layer × ℕ}
    (hle : List.zipIdxLE Layer.drawnBefore a b = true) :
    a.1.z < b.1.z ∨ a.1.z = b.1.z ∧ a.2 ≤ b.2 := by
  unfold List.zipIdxLE Layer.drawnBefore at hle
  split at hle
  case isFalse => cases hle
  case isTrue hab =>
    have hab := of_decide_eq_true hab
    split at hle
    case isTrue hba =>
      exact .inr ⟨Int32.le_antisymm hab (of_decide_eq_true hba), of_decide_eq_true hle⟩
    case isFalse hba =>
      exact .inl (Int32.not_le.mp fun h => hba (decide_eq_true h))

theorem pairwise_numbered (layers : List Layer) :
    (layers.zipIdx.mergeSort (List.zipIdxLE Layer.drawnBefore)).Pairwise
      fun a b => List.zipIdxLE Layer.drawnBefore a b = true :=
  List.pairwise_mergeSort (List.zipIdxLE_trans drawnBefore_trans)
    (List.zipIdxLE_total drawnBefore_total) _

/-- The stack of the sorted layers shows the topmost one: the sort is stable, so it is the sort
of the numbered layers by `z` and number. -/
theorem shown_picture (c : Compositor) (fb : Framebuffer) (p : ℕ × ℕ) (old : List UInt8) :
    Shown c.layers (fb.encodeRgba c.background) p ((c.picture fb p).getD old) := by
  rw [Compositor.picture, Picture.atop]
  cases hstack : Picture.stack Layer.picture (c.layers.mergeSort Layer.drawnBefore) p with
  | none =>
    refine .background fun layer hlayer => ?_
    exact Picture.stack_eq_none.mp hstack layer (List.mem_mergeSort.mpr hlayer)
  | some pix =>
    rw [← List.mergeSort_zipIdx, Picture.stack_map] at hstack
    obtain ⟨front, ⟨layer, i⟩, back, hsorted, hpix, hback⟩ :=
      Picture.exists_last_of_stack_eq_some hstack
    have hmem : ∀ item, item ∈ front ++ (layer, i) :: back ↔ c.layers[item.2]? = some item.1 := by
      intro item
      rw [← hsorted, List.mem_mergeSort, List.mem_zipIdx_iff_getElem?]
    have hpushed := (hmem (layer, i)).mp (by simp)
    refine .layer ⟨hpushed, Option.ne_none_iff_exists'.mpr ⟨pix, hpix⟩, ?_⟩ hpix
    intro j other hother hcovers
    rcases List.mem_append.mp ((hmem (other, j)).mpr hother) with hfront | hrest
    · have hpairwise := pairwise_numbered c.layers
      rw [hsorted, List.pairwise_append] at hpairwise
      have hbelow := below_of_zipIdxLE (hpairwise.2.2 (other, j) hfront (layer, i) (by simp))
      exact hbelow
    · rcases List.mem_cons.mp hrest with hsame | hlater
      · cases hsame
        exact .inr ⟨rfl, le_rfl⟩
      · exact absurd (hback _ hlater) hcovers

/-- Layers of distinct `z` are sorted the same way, whatever the order they were pushed in. -/
theorem mergeSort_eq_of_perm {layers pushed : List Layer} (hperm : pushed.Perm layers)
    (hdistinct : (layers.map Layer.z).Nodup) :
    pushed.mergeSort Layer.drawnBefore = layers.mergeSort Layer.drawnBefore := by
  have hsorted := List.pairwise_mergeSort drawnBefore_trans drawnBefore_total
  refine List.Perm.eq_of_pairwise ?_ (hsorted pushed) (hsorted layers)
    (((List.mergeSort_perm pushed _).trans hperm).trans (List.mergeSort_perm layers _).symm)
  intro a b ha hb hab hba
  have hz := Int32.le_antisymm (of_decide_eq_true hab) (of_decide_eq_true hba)
  exact List.inj_on_of_nodup_map hdistinct (hperm.mem_iff.mp (List.mem_mergeSort.mp ha))
    (List.mem_mergeSort.mp hb) hz

theorem Topmost.unique {layers : List Layer} {p : ℕ × ℕ} {i j : ℕ} {a b : Layer}
    (ha : Topmost layers p i a) (hb : Topmost layers p j b) : a = b := by
  have hab := ha.above j b hb.pushed hb.covers
  have hba := hb.above i a ha.pushed ha.covers
  rw [Int32.lt_iff_toInt_lt, ← Int32.toInt_inj] at hab hba
  have hij : i = j := by omega
  have hsame := ha.pushed
  rw [hij, hb.pushed, Option.some_inj] at hsame
  exact hsame.symm

theorem Shown.eq_of_topmost {layers : List Layer} {background pix : List UInt8} {p : ℕ × ℕ} {i : ℕ}
    {layer : Layer} (hshown : Shown layers background p pix) (htop : Topmost layers p i layer) :
    layer.picture p = some pix := by
  cases hshown with
  | background hnone => exact absurd (hnone layer (List.mem_of_getElem? htop.pushed)) htop.covers
  | layer hother hpix => rwa [htop.unique hother]

/-- Every visible pixel of a composed screen is the one of the topmost layer that has one there,
and the background if there is none; the rest of the slice is as it was.  The order in which
layers of distinct `z` were pushed does not matter. -/
theorem render_topmost (hmonitor : monitor.fb.FitsU32)
    (hlayers : ∀ layer ∈ c.layers, layer.fb.FitsU32) :
    (∃ bytes, c.render monitor = .ok { monitor with fb := monitor.fb.withPixels bytes } ∧
      bytes.length = monitor.fb.pixels.length ∧
      (∀ p, (monitor.fb.raster hmonitor.wellFormed.rows).Visible p →
        Shown c.layers (monitor.fb.encodeRgba c.background) p
          ((monitor.fb.raster hmonitor.wellFormed.rows).pixelAt bytes p)) ∧
      ∀ i, (monitor.fb.raster hmonitor.wellFormed.rows).Padding i →
        bytes[i]? = monitor.fb.pixels[i]?) ∧
    ((c.layers.map Layer.z).Nodup → ∀ pushed : Compositor, pushed.layers.Perm c.layers →
      pushed.background = c.background → pushed.render monitor = c.render monitor) := by
  constructor
  · obtain ⟨target, hrender, hdrawn⟩ := drawn_render hmonitor hlayers
    refine ⟨target.pixels, ?_, hdrawn.painted.length_eq, ?_, hdrawn.painted.padding⟩
    · rw [hrender, ← hdrawn.same]
    · intro p hp
      rw [hdrawn.painted.pixel p hp]
      exact shown_picture c monitor.fb p _
  · intro hdistinct pushed hperm hbackground
    have hsort := mergeSort_eq_of_perm hperm hdistinct
    unfold Layer.drawnBefore at hsort
    rw [Compositor.render, Compositor.render, hsort, hbackground]

/-- A screen of two pixels, with four bytes of padding. -/
def narrowScreen : Monitor :=
  .newPhysical "fb0" ⟨2, 1, 12, .bgra8, .heap [9, 9, 9, 9, 9, 9, 9, 9, 9, 9, 9, 9]⟩

/-- Two red pixels, the first of them left of the screen. -/
def redLayer : Layer := ⟨⟨2, 1, 8, .rgba8, .heap [0xff, 0, 0, 0xff, 0xff, 0, 0, 0xff]⟩, -1, 0, 2⟩

/-- A transparent pixel and one that is not. -/
def greenLayer : Layer := ⟨⟨2, 1, 8, .bgra8, .heap [0, 0xff, 0, 0, 0, 0xff, 0, 0xff]⟩, 0, 0, 1⟩

def pairOfLayers : Compositor := { Compositor.new with layers := [redLayer, greenLayer] }

theorem fitsU32_narrowScreen : narrowScreen.fb.FitsU32 :=
  ⟨⟨by unfold Framebuffer.RowsFit; decide, rfl, rfl, rfl, rfl⟩, by decide⟩

theorem fitsU32_pairOfLayers : ∀ layer ∈ pairOfLayers.layers, layer.fb.FitsU32 := by
  intro layer hlayer
  rcases List.mem_pair.mp hlayer with rfl | rfl
  · exact ⟨⟨by unfold Framebuffer.RowsFit; decide, rfl, rfl, rfl, rfl⟩, by decide⟩
  · exact ⟨⟨by unfold Framebuffer.RowsFit; decide, rfl, rfl, rfl, rfl⟩, by decide⟩

theorem render_topmost_pairOfLayers :
    (∃ bytes, pairOfLayers.render narrowScreen =
        .ok { narrowScreen with fb := narrowScreen.fb.withPixels bytes } ∧ bytes.length = 12) ∧
      ∀ pushed : Compositor, pushed.layers = [greenLayer, redLayer] →
        pushed.background = pairOfLayers.background →
          pushed.render narrowScreen = pairOfLayers.render narrowScreen := by
  obtain ⟨⟨bytes, hrender, hlength, _⟩, horder⟩ :=
    render_topmost fitsU32_narrowScreen fitsU32_pairOfLayers
  refine ⟨⟨bytes, hrender, hlength⟩, ?_⟩
  intro pushed hpushed hbackground
  refine horder (by decide) pushed ?_ hbackground
  rw [hpushed]
  exact List.Perm.swap _ _ _

end Render

/-! ## Colours -/

/-- The colour that the four bytes of a pixel stand for. -/
def PixelFormat.decode : PixelFormat → List UInt8 → Rgba
  | bgra8, bytes => ⟨bytes.getD 2 0, bytes.getD 1 0, bytes.getD 0 0, bytes.getD 3 0⟩
  | rgba8, bytes => ⟨bytes.getD 0 0, bytes.getD 1 0, bytes.getD 2 0, bytes.getD 3 0⟩

/-- The same bytes are the same colour in both formats only if red and blue are equal. -/
theorem decode_eq_iff (format other : PixelFormat) (bytes : List UInt8) :
    format.decode bytes = other.decode bytes ↔
      other = format ∨ (other.decode bytes).r = (other.decode bytes).b := by
  cases format with
  | bgra8 =>
    cases other with
    | bgra8 => simp
    | rgba8 => simp [PixelFormat.decode, eq_comm]
  | rgba8 =>
    cases other with
    | bgra8 => simp [PixelFormat.decode, eq_comm]
    | rgba8 => simp

/-- A composed pixel shows the colour it had in the layer exactly if both framebuffers have the
same format, or its red and blue are equal. -/
theorem render_sameColour_iff {monitor : Monitor} {c : Compositor}
    (hmonitor : monitor.fb.FitsU32) (hlayers : ∀ layer ∈ c.layers, layer.fb.FitsU32)
    {p : ℕ × ℕ} (hp : (monitor.fb.raster hmonitor.wellFormed.rows).Visible p) {i : ℕ}
    {layer : Layer} (htop : Topmost c.layers p i layer) :
    ∃ target q, c.render monitor = .ok { monitor with fb := target } ∧
      layer.sourceAt p = some q ∧
      (target.format.decode (target.pixelAt p) = layer.fb.format.decode (layer.fb.pixelAt q) ↔
        layer.fb.format = monitor.fb.format ∨
          (layer.fb.format.decode (layer.fb.pixelAt q)).r =
            (layer.fb.format.decode (layer.fb.pixelAt q)).b) := by
  obtain ⟨target, hrender, hdrawn⟩ := drawn_render hmonitor hlayers
  have hshown := shown_picture c monitor.fb p (monitor.fb.pixelAt p)
  have hpixel : target.pixelAt p = (c.picture monitor.fb p).getD (monitor.fb.pixelAt p) := by
    rw [Framebuffer.pixelAt, hdrawn.shape.2.2.1]
    exact hdrawn.painted.pixel p hp
  rw [← hpixel] at hshown
  obtain ⟨q, hsource, hsolid⟩ := Option.bind_eq_some_iff.mp (hshown.eq_of_topmost htop)
  rw [Framebuffer.solidAt] at hsolid
  split at hsolid
  case isTrue => cases hsolid
  case isFalse =>
    refine ⟨target, q, hrender, hsource, ?_⟩
    rw [← Option.some.inj hsolid, hdrawn.shape.2.2.2]
    exact decode_eq_iff _ _ _

theorem topmost_greenLayer : Topmost pairOfLayers.layers (1, 0) 1 greenLayer := by
  refine ⟨rfl, by decide, ?_⟩
  intro j other hother hcovers
  rcases j with _ | _ | j
  · cases hother
    exact absurd (by decide) hcovers
  · cases hother
    exact .inr ⟨rfl, le_rfl⟩
  · cases hother

theorem render_sameColour_iff_greenLayer :
    ∃ target, pairOfLayers.render narrowScreen = .ok { narrowScreen with fb := target } ∧
      target.format.decode (target.pixelAt (1, 0)) = ⟨0, 0xff, 0, 0xff⟩ := by
  obtain ⟨target, q, hrender, hsource, hcolour⟩ :=
    render_sameColour_iff fitsU32_narrowScreen fitsU32_pairOfLayers (p := (1, 0))
      ⟨by decide, by decide⟩ (i := 1) topmost_greenLayer
  obtain rfl : (1, 0) = q := Option.some.inj hsource
  exact ⟨target, hrender, hcolour.mpr (.inl rfl)⟩

def redAlone : Compositor := { Compositor.new with layers := [redLayer] }

/-- A red pixel of a layer in the other format is blue on the screen. -/
theorem render_redIsBlue :
    redLayer.fb.format.decode (redLayer.fb.pixelAt (1, 0)) = ⟨0xff, 0, 0, 0xff⟩ ∧
      (redAlone.render narrowScreen).map (fun after =>
        after.fb.format.decode (after.fb.pixelAt (0, 0))) = .ok ⟨0, 0, 0xff, 0xff⟩ := by
  have hsort : redAlone.layers.mergeSort (fun a b => a.z ≤ b.z) = [redLayer] :=
    List.mergeSort_singleton _
  rw [Compositor.render, hsort]
  decide +kernel

end Hyperion.Display
