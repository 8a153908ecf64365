import Mathlib
import SmoothShading.Proofs.Device
import SmoothShading.Proofs.Pieces
import SmoothShading.Raster

/-!
# What a raster shows

A raster is written by counting rows and columns and read by device coordinates. Each pixel of its
rectangle is read from where it was written, so a raster shows what `Rasterizer.colorAt` answers
(`Rasterizer.pixel_raster`), and of two rasters none shows anything else than the other.

The rectangle may reach past the last coordinate of the device. The pixels there repeat the last
ones that exist, but no pixel of the device is read from them.
-/

namespace SmoothShading

/-! ## Coordinates behind an origin -/

/-- The offset of a coordinate of the device leads back to it. -/
theorem Device.behind_offset {start n : Int32} {offset : ℕ} (hoffset : offset < 2 ^ 31)
    (h : n.toInt - start.toInt = offset) : behind start offset = n.toInt := by
  unfold behind
  rw [Int32.toInt_ofNat_of_lt hoffset, ← h, add_sub_cancel]
  exact saturate_of_inRange (inRange_toInt n)

theorem PixelRect.Includes.exists_offset {r : PixelRect} {q : Pixel} (h : r.Includes q) :
    ∃ column row : ℕ, (q.x - r.x.toInt = column ∧ column < r.width.toNat) ∧
      q.y - r.y.toInt = row ∧ row < r.height.toNat := by
  obtain ⟨⟨hx0, hx1⟩, hy0, hy1⟩ := h
  obtain ⟨column, hcolumn⟩ := Int.eq_ofNat_of_zero_le hx0
  obtain ⟨row, hrow⟩ := Int.eq_ofNat_of_zero_le hy0
  exact ⟨column, row, ⟨hcolumn, by omega⟩, hrow, by omega⟩

namespace Raster

/-! ## Reading -/

/-- The area that a raster covers. -/
def area (image : Raster) : PixelRect := ⟨image.x, image.y, image.width, image.height⟩

theorem pixel_of_not_includes {image : Raster} {q : Pixel} (h : ¬ image.area.Includes q) :
    image.pixel q = .transparent := by
  unfold pixel
  refine if_pos ?_
  unfold PixelRect.Includes area at h
  dsimp only at h
  omega

/-- A pixel of the area is read from four bytes. -/
theorem pixel_of_offset (image : Raster) {q : Pixel} {column row : ℕ}
    (hx : q.x - image.x.toInt = column) (hy : q.y - image.y.toInt = row)
    (hcolumn : column < image.width.toNat) (hrow : row < image.height.toNat) :
    image.pixel q = (Rgba.ofBytes? ((image.bytes.drop
      (row * (image.width.toNat * 4) + column * 4)).take 4)).getD .transparent := by
  have hstart : (((row : ℤ) * (image.width.toNat : ℤ) + (column : ℤ)) * 4).toNat =
      row * (image.width.toNat * 4) + column * 4 := by
    rw [← Nat.mul_assoc, ← Nat.add_mul]
    exact_mod_cast Int.toNat_natCast _
  unfold pixel bytes
  simp only [hx, hy, hstart]
  rw [if_neg (by omega), Array.toList_extract, List.extract_eq_take_drop, Nat.add_sub_cancel_left]

end Raster

namespace Rasterizer

variable {K : Type} [Scalar K]

/-! ## Writing -/

theorem length_bytes_ofPaint (c : Option Rgb8) : (Rgba.ofPaint c).bytes.length = 4 := rfl

theorem length_line (r : Rasterizer K) (x y : Int32) (width : UInt32) (row : ℕ) :
    (r.line x y width row).length = width.toNat * 4 :=
  length_flatMap_range (fun _ => length_bytes_ofPaint _) _

theorem length_bytes_raster (r : Rasterizer K) (x y : Int32) (width height : UInt32) :
    (r.raster x y width height).bytes.length = height.toNat * (width.toNat * 4) := by
  unfold Raster.bytes raster
  exact length_flatMap_range (r.length_line x y width) _

/-- The bytes that one row and one column were written to. -/
theorem bytes_raster (r : Rasterizer K) (x y : Int32) {width height : UInt32} {column row : ℕ}
    (hcolumn : column < width.toNat) (hrow : row < height.toNat) :
    (((r.raster x y width height).bytes.drop (row * (width.toNat * 4) + column * 4)).take 4) =
      (Rgba.ofPaint (r.colorAt ⟨Device.behind x column, Device.behind y row⟩)).bytes := by
  have hline : (((r.raster x y width height).bytes.drop (row * (width.toNat * 4))).take
      (width.toNat * 4)) = r.line x y width row := by
    unfold Raster.bytes raster
    exact piece_flatMap_range (r.length_line x y width) hrow
  have hpiece : ((r.line x y width row).drop (column * 4)).take 4 =
      (Rgba.ofPaint (r.colorAt ⟨Device.behind x column, Device.behind y row⟩)).bytes := by
    unfold line
    exact piece_flatMap_range (fun _ => length_bytes_ofPaint _) hcolumn
  rw [← hpiece, ← hline, List.drop_take, List.take_take, List.drop_drop, min_eq_left (by omega)]

theorem pixel_raster_of_includes (r : Rasterizer K) {x y : Int32} {width height : UInt32}
    (hwidth : width.toNat < 2 ^ 31) (hheight : height.toNat < 2 ^ 31) {px py : Int32}
    (h : PixelRect.Includes ⟨x, y, width, height⟩ ⟨px.toInt, py.toInt⟩) :
    (r.raster x y width height).pixel ⟨px.toInt, py.toInt⟩ =
      Rgba.ofPaint (r.colorAt ⟨px.toInt, py.toInt⟩) := by
  obtain ⟨column, row, ⟨hx, hcolumn⟩, hy, hrow⟩ := h.exists_offset
  have hbytes := r.bytes_raster x y hcolumn hrow
  rw [Device.behind_offset (hcolumn.trans hwidth) hx,
    Device.behind_offset (hrow.trans hheight) hy] at hbytes
  rw [(r.raster x y width height).pixel_of_offset hx hy hcolumn hrow]
  exact congrArg (fun bytes => (Rgba.ofBytes? bytes).getD .transparent) hbytes

/-- A raster shows every pixel of its rectangle as `colorAt` answers for it, and nothing else. Two
rasters show the pixels that both have in the same way. -/
theorem pixel_raster (r : Rasterizer K) (x y : Int32) {width height : UInt32}
    (hwidth : width.toNat < 2 ^ 31) (hheight : height.toNat < 2 ^ 31) :
    let area : PixelRect := ⟨x, y, width, height⟩
    let image := r.raster x y width height
    image.bytes.length = 4 * width.toNat * height.toNat ∧
      ∀ px py : Int32,
        let q : Pixel := ⟨px.toInt, py.toInt⟩
        (∀ c, area.Includes q → r.colorAt q = some c →
          image.pixel q = ⟨c.red, c.green, c.blue, 255⟩) ∧
        (¬ area.Includes q ∨ r.colorAt q = none → image.pixel q = ⟨0, 0, 0, 0⟩) ∧
        ∀ (x' y' : Int32) (width' height' : UInt32),
          width'.toNat < 2 ^ 31 → height'.toNat < 2 ^ 31 →
          area.Includes q → PixelRect.Includes ⟨x', y', width', height'⟩ q →
            (r.raster x' y' width' height').pixel q = image.pixel q := by
  intro area image
  refine ⟨?_, fun px py => ?_⟩
  · rw [r.length_bytes_raster]
    ring
  intro q
  have hpixel (h : area.Includes q) : image.pixel q = Rgba.ofPaint (r.colorAt q) :=
    r.pixel_raster_of_includes hwidth hheight h
  refine ⟨?_, ?_, ?_⟩
  · intro c h hc
    rw [hpixel h, hc]
    rfl
  · intro h
    by_cases hq : area.Includes q
    · rw [hpixel hq, h.resolve_left (not_not_intro hq)]
      rfl
    · exact Raster.pixel_of_not_includes hq
  · intro x' y' width' height' hwidth' hheight' h h'
    rw [hpixel h]
    exact r.pixel_raster_of_includes hwidth' hheight' h'

/-- The last pixels of the device, in a raster that reaches past them. -/
theorem pixel_raster_limit :
    let r : Rasterizer ℚ := ⟨.nothing, some ⟨1, 2, 3⟩, none⟩
    (4 : UInt32).toNat < 2 ^ 31 ∧ (1 : UInt32).toNat < 2 ^ 31 ∧
      (r.raster 2147483646 0 4 1).bytes.length = 16 ∧
      (r.raster 2147483646 0 4 1).pixel ⟨2147483647, 0⟩ = ⟨1, 2, 3, 255⟩ := by
  intro r
  have hwidth : (4 : UInt32).toNat < 2 ^ 31 := by decide
  have hheight : (1 : UInt32).toNat < 2 ^ 31 := by decide
  obtain ⟨hlength, hpixel⟩ := pixel_raster r 2147483646 0 hwidth hheight
  refine ⟨hwidth, hheight, hlength, ?_⟩
  refine (hpixel 2147483647 0).1 ⟨1, 2, 3⟩ ?_ rfl
  exact ⟨⟨by decide, by decide⟩, by decide, by decide⟩

end Rasterizer

end SmoothShading
