import Hyperion.Lib.Bytes
import Hyperion.Lib.Overlay

/-!
# Pictures in a buffer of rows

A raster says where the pixels of an image lie in a buffer of bytes: in rows of `stride` bytes,
`size` bytes each, so that rows may end in padding.  `Painted` is the exact effect of a drawing:
the picture it lays over what was there, and that it leaves the padding alone.  Drawings one
after the other lay their pictures over each other (`Painted.trans`).
-/

namespace Hyperion.Lib

/-- The layout of an image in a buffer. -/
structure Raster where
  width : ℕ
  height : ℕ
  /-- Bytes per row. -/
  stride : ℕ
  /-- Bytes per pixel. -/
  size : ℕ
  rows : size * width ≤ stride

namespace Raster

variable {r : Raster} {p q : ℕ × ℕ} {buf mid out pix : List UInt8}

/-- The column and the row of a pixel of the image. -/
def Visible (r : Raster) (p : ℕ × ℕ) : Prop := p.1 < r.width ∧ p.2 < r.height

/-- Where a pixel starts. -/
def offset (r : Raster) (p : ℕ × ℕ) : ℕ := p.2 * r.stride + r.size * p.1

def pixelAt (r : Raster) (buf : List UInt8) (p : ℕ × ℕ) : List UInt8 :=
  bytesAt buf (r.offset p) r.size

/-- A byte that belongs to no pixel of the image. -/
def Padding (r : Raster) (i : ℕ) : Prop :=
  ∀ p, r.Visible p → i < r.offset p ∨ r.offset p + r.size ≤ i

/-- `out` is `buf` with the picture laid over it. -/
structure Painted (r : Raster) (picture : Picture (ℕ × ℕ) (List UInt8)) (buf out : List UInt8) :
    Prop where
  length_eq : out.length = buf.length
  pixel : ∀ p, r.Visible p → r.pixelAt out p = (picture p).getD (r.pixelAt buf p)
  padding : ∀ i, r.Padding i → out[i]? = buf[i]?

/-! ## Where pixels lie -/

theorem offset_add_size_le_stride (hp : p.1 < r.width) :
    r.offset p + r.size ≤ (p.2 + 1) * r.stride :=
  calc r.offset p + r.size = p.2 * r.stride + r.size * (p.1 + 1) := by rw [offset]; ring
    _ ≤ p.2 * r.stride + r.size * r.width := by gcongr; exact hp
    _ ≤ p.2 * r.stride + r.stride := by gcongr; exact r.rows
    _ = (p.2 + 1) * r.stride := by ring

theorem offset_le (hp : r.Visible p) : r.offset p + r.size ≤ r.stride * r.height :=
  calc r.offset p + r.size ≤ (p.2 + 1) * r.stride := offset_add_size_le_stride hp.1
    _ ≤ r.height * r.stride := Nat.mul_le_mul_right _ hp.2
    _ = r.stride * r.height := Nat.mul_comm _ _

/-- A pixel ends before the next one in reading order starts. -/
theorem offset_add_size_le (hp : p.1 < r.width) (hlt : p.2 < q.2 ∨ p.2 = q.2 ∧ p.1 < q.1) :
    r.offset p + r.size ≤ r.offset q := by
  rcases hlt with hrow | ⟨hrow, hcolumn⟩
  · calc r.offset p + r.size ≤ (p.2 + 1) * r.stride := offset_add_size_le_stride hp
      _ ≤ q.2 * r.stride := Nat.mul_le_mul_right _ hrow
      _ ≤ r.offset q := Nat.le_add_right _ _
  · calc r.offset p + r.size = p.2 * r.stride + r.size * (p.1 + 1) := by rw [offset]; ring
      _ ≤ q.2 * r.stride + r.size * q.1 := by rw [hrow]; gcongr; exact hcolumn
      _ = r.offset q := rfl

theorem offset_disjoint (hp : p.1 < r.width) (hq : q.1 < r.width) (hne : p ≠ q) :
    r.offset p + r.size ≤ r.offset q ∨ r.offset q + r.size ≤ r.offset p := by
  rcases lt_trichotomy p.2 q.2 with hrow | hrow | hrow
  · exact .inl (offset_add_size_le hp (.inl hrow))
  · rcases Nat.lt_or_gt_of_ne (fun heq => hne (Prod.ext heq hrow)) with hcolumn | hcolumn
    · exact .inl (offset_add_size_le hp (.inr ⟨hrow, hcolumn⟩))
    · exact .inr (offset_add_size_le hq (.inr ⟨hrow.symm, hcolumn⟩))
  · exact .inr (offset_add_size_le hq (.inl hrow))

/-- A byte of a pixel. -/
theorem getElem?_pixelAt {i : ℕ} (hlow : r.offset p ≤ i) (hhigh : i < r.offset p + r.size) :
    (r.pixelAt buf p)[i - r.offset p]? = buf[i]? := by
  rw [pixelAt, bytesAt, List.getElem?_take_of_lt (by omega), List.getElem?_drop,
    Nat.add_sub_cancel' hlow]

/-! ## Painting -/

theorem painted_none (buf : List UInt8) : r.Painted (fun _ => none) buf buf :=
  ⟨rfl, fun _ _ => rfl, fun _ _ => rfl⟩

theorem Painted.congr {picture picture' : Picture (ℕ × ℕ) (List UInt8)}
    (hpainted : r.Painted picture buf out) (heq : ∀ p, r.Visible p → picture p = picture' p) :
    r.Painted picture' buf out :=
  ⟨hpainted.length_eq, fun p hp => by rw [hpainted.pixel p hp, heq p hp], hpainted.padding⟩

theorem Painted.trans {first second : Picture (ℕ × ℕ) (List UInt8)}
    (hfirst : r.Painted first buf mid) (hsecond : r.Painted second mid out) :
    r.Painted (.atop second first) buf out := by
  refine ⟨hsecond.length_eq.trans hfirst.length_eq, ?_, ?_⟩
  · intro p hp
    rw [hsecond.pixel p hp, hfirst.pixel p hp, Picture.atop]
    cases second p with
    | none => rw [Option.none_or, Option.getD_none]
    | some v => rfl
  · intro i hi
    rw [hsecond.padding i hi, hfirst.padding i hi]

/-- Writing one pixel. -/
theorem painted_overwrite (hbuf : buf.length = r.stride * r.height) (hp : r.Visible p)
    (hpix : pix.length = r.size) :
    r.Painted (.single p pix) buf (overwrite buf (r.offset p) pix) := by
  have hle : r.offset p + pix.length ≤ buf.length := by
    rw [hpix, hbuf]
    exact offset_le hp
  refine ⟨length_overwrite hle, ?_, ?_⟩
  · intro q hq
    rw [Picture.single]
    split
    case isTrue heq =>
      rw [heq, Option.getD_some, pixelAt, ← hpix, bytesAt_overwrite_self hle]
    case isFalse hne =>
      rw [Option.getD_none, pixelAt, pixelAt, bytesAt_overwrite_of_disjoint hle]
      rw [hpix]
      exact offset_disjoint hq.1 hp.1 hne
  · intro i hi
    rw [getElem?_eq_head?_bytesAt, getElem?_eq_head?_bytesAt, bytesAt_overwrite_of_disjoint hle]
    rw [hpix]
    exact (hi p hp).imp Nat.succ_le_of_lt id

end Raster

end Hyperion.Lib
