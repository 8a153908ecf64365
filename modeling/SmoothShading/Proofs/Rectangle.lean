import Mathlib
import SmoothShading.Proofs.Paint.Coverage
import SmoothShading.Proofs.Raster

/-!
# Rectangles at the limits of the device

A rectangle is given by its first pixel and its size, and is searched by its first and its last
pixel. Where the last pixel is a coordinate short of the last one of the device, both say the same
(`PixelRect.contains_iff_includes`), and nothing is painted in a rectangle without pixels.

The last pixel is found in two steps, one behind the last pixel and back again, and each of them
stops at a limit of the device. So the last coordinate of the device is in no rectangle, and a side
without pixels at the least coordinate has that coordinate all the same
(`PixelRect.le_lastOf_iff`). A raster counts from its first pixel and has neither exception.
-/

namespace SmoothShading

open Device

namespace PixelRect

/-! ## The sides of a rectangle -/

/-- The coordinates up to the last one of a side are those that the size counts, but for the two
limits of the device. -/
theorem le_lastOf_iff {start : Int32} {size : UInt32} {n : ℤ} (hn : InRange n) :
    start.toInt ≤ n ∧ n ≤ lastOf start size ↔
      ((0 ≤ n - start.toInt ∧ n - start.toInt < size.toNat) ∧ n ≠ maxCoordinate) ∨
        size.toNat = 0 ∧ start.toInt = minCoordinate ∧ n = minCoordinate := by
  have hstart := inRange_toInt start
  unfold InRange minCoordinate maxCoordinate at *
  unfold lastOf saturate minCoordinate maxCoordinate
  omega

theorem le_lastOf_iff_of_lt {start : Int32} {size : UInt32} {n : ℤ}
    (hlast : minCoordinate < start.toInt + size.toNat) (hn : InRange n) :
    start.toInt ≤ n ∧ n ≤ lastOf start size ↔
      (0 ≤ n - start.toInt ∧ n - start.toInt < size.toNat) ∧ n ≠ maxCoordinate := by
  rw [le_lastOf_iff hn, or_iff_left]
  omega

/-- A side without pixels has no coordinate, unless it is at the least one. -/
theorem not_le_lastOf {start : Int32} {size : UInt32} {n : ℤ}
    (hlast : minCoordinate < start.toInt + size.toNat) (hsize : size = 0) :
    ¬ (start.toInt ≤ n ∧ n ≤ lastOf start size) := by
  rintro ⟨hlo, hhi⟩
  subst hsize
  have hn : InRange n := inRange_of_le (inRange_saturate _) hlo hhi
  obtain ⟨⟨-, hlt⟩, -⟩ := (le_lastOf_iff_of_lt hlast hn).mp ⟨hlo, hhi⟩
  rw [UInt32.toNat_zero] at hlt
  omega

end PixelRect

/-! ## Painting in no pixel -/

section Empty

variable {K C : Type} [Scalar K] [Channel C K] {bounds : PixelRect}

theorem Triangle.fragments_eq_nil (h : ∀ q, bounds.contains q = false) (t : Triangle K C) :
    t.fragments bounds = [] := by
  obtain ⟨pixels, color, hfragments, -, hpixels⟩ := t.exists_fragments_eq bounds
  obtain rfl : pixels = [] := by
    refine List.eq_nil_iff_forall_not_mem.mpr fun q hq => ?_
    exact Bool.false_ne_true ((h q).symm.trans (hpixels q hq))
  exact hfragments

/-- Within bounds that contain no pixel nothing is painted, and no color is converted. -/
theorem Coverage.ofTriangles_eq_empty (h : ∀ q, bounds.contains q = false)
    (convert : Conversion C) (triangles : List (Triangle K C)) :
    ofTriangles convert bounds triangles = ⟨⟨∅⟩, []⟩ := by
  have hnil : triangles.flatMap (Triangle.fragments bounds) = [] :=
    List.flatMap_eq_nil_iff.mpr fun t _ => t.fragments_eq_nil h
  rw [ofTriangles, hnil]
  rfl

end Empty

namespace PixelRect

/-! ## Rectangles -/

/-- A rectangle contains the pixels that it includes, but for the last column and the last row of
the device, and one of width or height zero contains none and shows nothing of what is painted in
it. This is so unless a side is empty at the least coordinate of the device. -/
theorem contains_iff_includes {r : PixelRect} (hx : minCoordinate < r.x.toInt + r.width.toNat)
    (hy : minCoordinate < r.y.toInt + r.height.toNat) :
    (∀ px py : Int32, r.contains ⟨px.toInt, py.toInt⟩ = true ↔
      r.Includes ⟨px.toInt, py.toInt⟩ ∧ px.toInt ≠ maxCoordinate ∧ py.toInt ≠ maxCoordinate) ∧
    (r.width = 0 ∨ r.height = 0 → (∀ q, r.contains q = false) ∧
      ∀ {K C : Type} [Scalar K] [Channel C K] (convert : Conversion C)
        (triangles : List (Triangle K C)),
        (Coverage.ofTriangles convert r triangles).value.colors = ∅) := by
  refine ⟨fun px py => ?_, fun hempty => ?_⟩
  · have hcolumn := le_lastOf_iff_of_lt hx (inRange_toInt px)
    have hrow := le_lastOf_iff_of_lt hy (inRange_toInt py)
    exact contains_iff.trans ((and_congr hcolumn hrow).trans and_and_and_comm)
  · have hcontains (q : Pixel) : r.contains q = false := by
      rw [← Bool.not_eq_true, contains_iff]
      rintro ⟨hcolumn, hrow⟩
      rcases hempty with hwidth | hheight
      · exact not_le_lastOf hx hwidth hcolumn
      · exact not_le_lastOf hy hheight hrow
    refine ⟨hcontains, fun convert triangles => ?_⟩
    rw [Coverage.ofTriangles_eq_empty hcontains]

/-- A rectangle that passes the last column of the device, and one of height zero that starts in the
first column. -/
theorem contains_iff_includes_wide :
    let wide : PixelRect := ⟨2147483645, 7, 9, 2⟩
    let flat : PixelRect := ⟨-2147483648, 7, 4, 0⟩
    let corner : Vertex ℚ ℚ := ⟨⟨-2147483648, 7⟩, [1]⟩
    (minCoordinate < wide.x.toInt + wide.width.toNat ∧
        minCoordinate < wide.y.toInt + wide.height.toNat) ∧
      wide.contains ⟨2147483646, 8⟩ = true ∧
      (minCoordinate < flat.x.toInt + flat.width.toNat ∧
        minCoordinate < flat.y.toInt + flat.height.toNat) ∧
      (Coverage.ofTriangles (.of .gray none) flat [⟨corner, corner, corner⟩]).value.colors = ∅ := by
  intro wide flat corner
  have hwide : minCoordinate < wide.x.toInt + wide.width.toNat ∧
      minCoordinate < wide.y.toInt + wide.height.toNat := by decide
  have hflat : minCoordinate < flat.x.toInt + flat.width.toNat ∧
      minCoordinate < flat.y.toInt + flat.height.toNat := by decide
  have hincludes : wide.Includes ⟨2147483646, 8⟩ :=
    ⟨⟨by decide, by decide⟩, by decide, by decide⟩
  obtain ⟨hcontains, -⟩ := contains_iff_includes hwide.1 hwide.2
  obtain ⟨-, hempty⟩ := contains_iff_includes hflat.1 hflat.2
  obtain ⟨-, hcolors⟩ := hempty (.inr rfl)
  exact ⟨hwide, (hcontains 2147483646 8).mpr ⟨hincludes, by decide, by decide⟩, hflat,
    hcolors _ _⟩

/-- At the limits of the device: a rectangle of one pixel does not contain it, though a raster of
the same area has it, and a rectangle without pixels contains one and shows what is painted there.
-/
theorem contains_at_limits :
    let last : PixelRect := ⟨2147483647, 0, 1, 1⟩
    let image : Raster := ⟨last.x, last.y, last.width, last.height, #[1, 2, 3, 255]⟩
    let first : PixelRect := ⟨-2147483648, -2147483648, 0, 0⟩
    let corner : Vertex ℚ ℚ := ⟨⟨-2147483648, -2147483648⟩, [1]⟩
    let coverage := (Coverage.ofTriangles (.of .gray none) first [⟨corner, corner, corner⟩]).value
    (last.Includes ⟨2147483647, 0⟩ ∧ last.contains ⟨2147483647, 0⟩ = false ∧
        image.pixel ⟨2147483647, 0⟩ = ⟨1, 2, 3, 255⟩) ∧
      ¬ first.Includes ⟨-2147483648, -2147483648⟩ ∧
      first.contains ⟨-2147483648, -2147483648⟩ = true ∧
      coverage.colorAt ⟨-2147483648, -2147483648⟩ = some ⟨255, 255, 255⟩ := by
  intro last image first corner coverage
  have hcolor : coverage.colorAt ⟨-2147483648, -2147483648⟩ = some ⟨255, 255, 255⟩ := by
    rw [Coverage.colorAt_ofTriangles]
    decide +kernel
  refine ⟨⟨⟨⟨by decide, by decide⟩, by decide, by decide⟩, by decide, by decide⟩, ?_, by decide,
    hcolor⟩
  rintro ⟨⟨-, hwidth⟩, -⟩
  exact absurd hwidth (by decide)

end PixelRect

end SmoothShading
