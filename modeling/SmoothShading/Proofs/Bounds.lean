import Mathlib
import SmoothShading.Proofs.Rasterizer

/-!
# Bounds

A mesh is painted within bounds alone, and its triangles are searched and its lines are walked no
farther. Nothing of what is painted inside depends on where the bounds are
(`Rasterizer.colorAt_eq_of_contains`), so a picture may be painted in pieces.

This is so for all scalars with the laws of `LawfulScalar`, since no color and no pixel is computed
from the bounds: they decide where a walk starts and stops, and which pixels are kept.
-/

namespace SmoothShading

variable {K C : Type} [Scalar K] [LawfulScalar K] [Channel C K] {b₁ b₂ : PixelRect} {q : Pixel}

/-- Two bounds with a common pixel find the same color for it. -/
theorem Triangle.find?_fragments_congr (t : Triangle K C) (h₁ : b₁.contains q = true)
    (h₂ : b₂.contains q = true) :
    (t.fragments b₁).reverse.find? (·.pixel == q) =
      (t.fragments b₂).reverse.find? (·.pixel == q) := by
  by_cases hline : ∃ l, t.shape = .line l
  · obtain ⟨l, hl⟩ := hline
    have hrounded : l.IsRounded := by
      rw [eq_between_of_shape hl]
      exact Line.isRounded_between _ _
    rw [fragments_of_line hl, fragments_of_line hl, Fragment.find?_reverse l.colorAt,
      Fragment.find?_reverse l.colorAt]
    refine if_congr ?_ rfl rfl
    rw [Line.mem_pixels_iff_reaches hrounded, Line.mem_pixels_iff_reaches hrounded,
      and_iff_right h₁, and_iff_right h₂]
  · have hne := not_exists.mp hline
    rw [fragments_of_ne_line hne, fragments_of_ne_line hne,
      Fragment.find?_reverse fun q => t.colorAt q.sample,
      Fragment.find?_reverse fun q => t.colorAt q.sample]
    refine if_congr ?_ rfl rfl
    rw [List.mem_filter, List.mem_filter, mem_candidates_iff, mem_candidates_iff,
      and_iff_right h₁, and_iff_right h₂]

theorem Coverage.colorAt_ofTriangles_congr (convert : Conversion C)
    (triangles : List (Triangle K C)) (h₁ : b₁.contains q = true) (h₂ : b₂.contains q = true) :
    (ofTriangles convert b₁ triangles).value.colorAt q =
      (ofTriangles convert b₂ triangles).value.colorAt q := by
  have hfind (t : Triangle K C) := t.find?_fragments_congr h₁ h₂
  simp only [colorAt_ofTriangles_eq_findSome?, hfind]

/-- The same shading can be painted within any bounds, and its paint has the same colors inside. -/
theorem Shading.exists_paint_congr {s : Shading K C} {convert : Conversion C} {t : Affine K}
    {data : Array UInt8} {p₁ : Reported (Paint K)} (h : s.paint convert t data b₁ = .ok p₁)
    (b₂ : PixelRect) :
    ∃ p₂, s.paint convert t data b₂ = .ok p₂ ∧ ∀ q, b₁.contains q = true → b₂.contains q = true →
      p₁.value.colorAt q = p₂.value.colorAt q := by
  cases hgeometry : s.geometry with
  | axial axis =>
    -- the colors of an axial shading are found pixel by pixel, without bounds
    refine ⟨p₁, ?_, fun _ _ _ => rfl⟩
    rw [← h, paint, paint, hgeometry]
  | mesh mesh =>
    obtain ⟨triangles, htriangles, rfl⟩ := (paint_mesh_eq_ok_iff hgeometry).mp h
    refine ⟨_, (paint_mesh_eq_ok_iff hgeometry).mpr ⟨triangles, htriangles, rfl⟩, ?_⟩
    intro q h₁ h₂
    exact Coverage.colorAt_ofTriangles_congr convert triangles.value h₁ h₂

namespace Rasterizer

omit [LawfulScalar K] in
theorem colorAt_congr {r₁ r₂ : Rasterizer K} (hclip : r₁.clip = r₂.clip)
    (hbackground : r₁.background = r₂.background)
    (hpaint : r₁.paint.colorAt q = r₂.paint.colorAt q) : r₁.colorAt q = r₂.colorAt q := by
  unfold colorAt
  rw [hclip, hbackground, hpaint]

variable [Scalar C]

/-- Whether a shading is usable does not depend on the bounds, and neither do the colors inside:
two rasterizers of one shading agree on the pixels within the bounds of both. -/
theorem colorAt_eq_of_contains {s : Shading K C} {t : Affine K} {data : Array UInt8}
    {r₁ : Reported (Rasterizer K)} (h : ofShading s t data b₁ = .ok r₁) (b₂ : PixelRect) :
    ∃ r₂, ofShading s t data b₂ = .ok r₂ ∧ ∀ q, b₁.contains q = true → b₂.contains q = true →
      r₁.value.colorAt q = r₂.value.colorAt q := by
  obtain ⟨hcheck, p₁, hp₁, rfl⟩ := build_eq_ok_iff.mp h
  obtain ⟨p₂, hp₂, hcolors⟩ := Shading.exists_paint_congr hp₁ b₂
  refine ⟨_, build_eq_ok_iff.mpr ⟨hcheck, p₂, hp₂, rfl⟩, fun q h₁ h₂ => ?_⟩
  exact colorAt_congr rfl rfl (hcolors q h₁ h₂)

/-- The walk along a triangle without an area, cut short on both sides. -/
theorem colorAt_eq_of_contains_line :
    let mesh : Mesh ℚ := .freeForm ⟨8, 8, 8, [0, 8, 0, 8, 0, 1]⟩
    let s : Shading ℚ ℚ := ⟨.mesh mesh, .gray, none, none, none⟩
    let data : Array UInt8 := #[0, 0, 0, 0, 0, 255, 128, 255, 0, 0, 0, 0]
    ∃ r₁, ofShading s .identity data ⟨0, 0, 16, 16⟩ = .ok r₁ ∧
      r₁.value.colorAt ⟨6, 3⟩ = some ⟨191, 191, 191⟩ ∧
      ∃ r₂, ofShading s .identity data ⟨5, 2, 2, 4⟩ = .ok r₂ ∧
        r₂.value.colorAt ⟨6, 3⟩ = some ⟨191, 191, 191⟩ := by
  intro mesh s data
  obtain ⟨r₁, h, hcolor⟩ : ∃ r₁, ofShading s .identity data ⟨0, 0, 16, 16⟩ = .ok r₁ ∧
      r₁.value.colorAt ⟨6, 3⟩ = some ⟨191, 191, 191⟩ := ⟨_, rfl, by cbv⟩
  have h₁ : PixelRect.contains ⟨0, 0, 16, 16⟩ ⟨6, 3⟩ = true := by decide
  have h₂ : PixelRect.contains ⟨5, 2, 2, 4⟩ ⟨6, 3⟩ = true := by decide
  obtain ⟨r₂, hr₂, hcolors⟩ := colorAt_eq_of_contains h ⟨5, 2, 2, 4⟩
  exact ⟨r₁, h, hcolor, r₂, hr₂, (hcolors ⟨6, 3⟩ h₁ h₂).symm.trans hcolor⟩

end Rasterizer

end SmoothShading
