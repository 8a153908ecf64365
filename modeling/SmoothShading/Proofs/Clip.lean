import Mathlib
import SmoothShading.Proofs.Mesh.Triangle
import SmoothShading.Proofs.Rasterizer

/-!
# The clip box

A rasterizer clips by the smallest box around the image of the box of its shading. The image itself
may be turned or sheared, so that the box around it contains more, but never less: no pixel in the
image is lost (`Shading.agreeAt_of_mem_box`). Along each coordinate of the image, a point of a
rectangle lies between two points of its sides, and these lie between corners.

Whether a box clips at all is decided by the area of the box around its image. A box without an area
is a segment, and the box around the image of a segment has an area unless the image lies along an
axis: such a box clips if it is turned (`Shading.agreeAt_of_flat_box`).
-/

namespace SmoothShading

open Scalar

/-! ## The box around the image of a box -/

/-- A number between two others stays between them when all are scaled and moved. -/
theorem mul_add_mem_uIcc {x x₀ x₁ : ℚ} (h : x ∈ Set.uIcc x₀ x₁) (m k : ℚ) :
    m * x + k ∈ Set.uIcc (m * x₀ + k) (m * x₁ + k) := by
  rcases le_total 0 m with hm | hm
  · have hmono : Monotone fun x => m * x + k := fun x y hxy =>
      add_le_add_left (mul_le_mul_of_nonneg_left hxy hm) k
    exact hmono.mapsTo_uIcc h
  · have hanti : Antitone fun x => m * x + k := fun x y hxy =>
      add_le_add_left (mul_le_mul_of_nonpos_left hxy hm) k
    exact hanti.mapsTo_uIcc h

/-- A coordinate of the image of a point lies between those of the images of the corners. -/
theorem coordinate_mem_corners {x x₀ x₁ y y₀ y₁ : ℚ} (hx : x ∈ Set.uIcc x₀ x₁)
    (hy : y ∈ Set.uIcc y₀ y₁) (m n k : ℚ) :
    let f (x y : ℚ) := m * x + n * y + k
    min (min (f x₀ y₀) (f x₀ y₁)) (min (f x₁ y₀) (f x₁ y₁)) ≤ f x y ∧
      f x y ≤ max (max (f x₀ y₀) (f x₀ y₁)) (max (f x₁ y₀) (f x₁ y₁)) := by
  intro f
  have hside (z : ℚ) : f z y ∈ Set.uIcc (f z y₀) (f z y₁) := by
    have hmem := mul_add_mem_uIcc hy n (m * z + k)
    have hf (w : ℚ) : n * w + (m * z + k) = f z w := by ring
    rwa [hf, hf, hf] at hmem
  have hinner : f x y ∈ Set.uIcc (f x₀ y) (f x₁ y) := by
    have hmem := mul_add_mem_uIcc hx m (n * y + k)
    have hf (w : ℚ) : m * w + (n * y + k) = f w y := by ring
    rwa [hf, hf, hf] at hmem
  obtain ⟨hleft, hleft'⟩ := hside x₀
  obtain ⟨hright, hright'⟩ := hside x₁
  exact ⟨(min_le_min hleft hright).trans hinner.1, hinner.2.trans (max_le_max hleft' hright')⟩

namespace Box

variable {b : Box ℚ} {p q : Point ℚ}

/-- The points of the rectangle and its sides, whichever two opposite corners are given. -/
def Contains (b : Box ℚ) (p : Point ℚ) : Prop :=
  p.x ∈ Set.uIcc b.x0 b.x1 ∧ p.y ∈ Set.uIcc b.y0 b.y1

theorem ordered_rat (b : Box ℚ) :
    b.ordered = ⟨min b.x0 b.x1, min b.y0 b.y1, max b.x0 b.x1, max b.y0 b.y1⟩ := by
  simp only [ordered, minNum_rat, maxNum_rat]

theorem ofPoints_comm (p q : Point ℚ) : ofPoints p q = ofPoints q p := by
  rw [ofPoints, ofPoints, ordered_rat, ordered_rat, min_comm p.x, min_comm p.y, max_comm p.x,
    max_comm p.y]

theorem union_comm (b c : Box ℚ) : b.union c = c.union b := by
  simp only [union, minNum_rat, maxNum_rat]
  rw [min_comm b.x0, min_comm b.y0, max_comm b.x1, max_comm b.y1]

theorem union_self (b : Box ℚ) : b.union b = b := by
  simp only [union, minNum_rat, maxNum_rat, min_self, max_self]

theorem union_points (p q : Point ℚ) : (ofPoints p p).union (ofPoints q q) = ofPoints p q := by
  simp only [union, ofPoints, ordered_rat, minNum_rat, maxNum_rat, min_self, max_self]

/-- The box around an image is the same for whichever two opposite corners are given. -/
theorem image_ordered (b : Box ℚ) (t : Affine ℚ) : b.ordered.image t = b.image t := by
  have hx (y y' : ℚ) :
      image t ⟨min b.x0 b.x1, y, max b.x0 b.x1, y'⟩ = image t ⟨b.x0, y, b.x1, y'⟩ := by
    rcases le_total b.x0 b.x1 with hle | hle
    · rw [min_eq_left hle, max_eq_right hle]
    · rw [min_eq_right hle, max_eq_left hle]
      exact union_comm _ _
  have hy (x x' : ℚ) :
      image t ⟨x, min b.y0 b.y1, x', max b.y0 b.y1⟩ = image t ⟨x, b.y0, x', b.y1⟩ := by
    rcases le_total b.y0 b.y1 with hle | hle
    · rw [min_eq_left hle, max_eq_right hle]
    · rw [min_eq_right hle, max_eq_left hle]
      exact congrArg₂ union (ofPoints_comm _ _) (ofPoints_comm _ _)
  rw [ordered_rat, hx, hy]

/-- The box around the image of a box has the images of all its points. -/
theorem excludes_image_apply (h : b.Contains p) (t : Affine ℚ) :
    (b.image t).excludes (t.apply p) = false := by
  rw [excludes_eq_false_iff]
  simp only [image, ofPoints, union, ordered_rat, minNum_rat, maxNum_rat]
  exact ⟨coordinate_mem_corners h.1 h.2 t.a t.c t.e, coordinate_mem_corners h.1 h.2 t.b t.d t.f⟩

/-- A box without an area is the segment between two opposite corners. -/
theorem image_of_flat (h : b.x0 = b.x1 ∨ b.y0 = b.y1) (t : Affine ℚ) :
    b.image t = ofPoints (t.apply ⟨b.x0, b.y0⟩) (t.apply ⟨b.x1, b.y1⟩) := by
  rw [image]
  rcases h with hx | hy
  · rw [hx, union_self]
  · rw [hy, union_points]

theorem width_ofPoints_pos_iff : 0 < (ofPoints p q).width ↔ p.x ≠ q.x := by
  rw [ofPoints, ordered_rat, width, sub_pos, min_lt_max]

theorem height_ofPoints_pos_iff : 0 < (ofPoints p q).height ↔ p.y ≠ q.y := by
  rw [ofPoints, ordered_rat, height, sub_pos, min_lt_max]

end Box

/-! ## Clipping by a box -/

section Clipping

variable {K C : Type} [Scalar K]

/-- The same shading without a clip box. -/
def Shading.withoutBox (s : Shading K C) : Shading K C := { s with box := none }

namespace Rasterizer

/-- The same rasterizer with another clip box. -/
def clippedBy (r : Rasterizer K) (clip : Option (Box K)) : Rasterizer K := { r with clip }

theorem colorAt_clippedBy {r : Rasterizer K} (h : r.clip = none) (clip : Option (Box K))
    (q : Pixel) : (r.clippedBy clip).colorAt q =
      if clip.any (·.excludes q.sample) then none else r.colorAt q := by
  unfold colorAt
  rw [h]
  rfl

variable [Channel C K]

/-- The box of a shading decides nothing but the clip box. -/
theorem build_withoutBox (s : Shading K C) (convert convertBackground : Conversion C)
    (t : Affine K) (data : Array UInt8) (bounds : PixelRect) :
    build s convert convertBackground t data bounds =
      (build s.withoutBox convert convertBackground t data bounds).map
        (Reported.map (·.clippedBy (s.clip t))) := by
  have hcheck : s.withoutBox.check = s.check := rfl
  have hpaint : s.withoutBox.paint convert t data bounds = s.paint convert t data bounds := rfl
  unfold build
  rw [hcheck, hpaint]
  rcases s.check with e | ⟨⟩
  · rfl
  · rcases s.paint convert t data bounds with e | paint
    · rfl
    · rfl

theorem clip_eq_none {s : Shading K C} {convert convertBackground : Conversion C} {t : Affine K}
    {data : Array UInt8} {bounds : PixelRect} {r : Reported (Rasterizer K)}
    (h : build s.withoutBox convert convertBackground t data bounds = .ok r) :
    r.value.clip = none := by
  obtain ⟨-, paint, -, rfl⟩ := build_eq_ok_iff.mp h
  rfl

variable [Scalar C] (s : Shading K C) (t : Affine K) (data : Array UInt8) (bounds : PixelRect)
  (q : Pixel)

theorem ofShading_withoutBox :
    ofShading s t data bounds = (ofShading s.withoutBox t data bounds).map
      (Reported.map (·.clippedBy (s.clip t))) := build_withoutBox s _ _ t data bounds

theorem colorAt_ofShading :
    (ofShading s t data bounds).map (·.value.colorAt q) =
      (ofShading s.withoutBox t data bounds).map fun r =>
        if (s.clip t).any (·.excludes q.sample) then none else r.value.colorAt q := by
  rw [ofShading_withoutBox]
  rcases h : ofShading s.withoutBox t data bounds with e | r
  · rfl
  · exact congrArg Except.ok (colorAt_clippedBy (clip_eq_none h) (s.clip t) q)

theorem colorAt_ofShadingOrBackground :
    (ofShadingOrBackground s t data bounds).value.colorAt q =
      if (s.clip t).any (·.excludes q.sample) then none
      else (ofShadingOrBackground s.withoutBox t data bounds).value.colorAt q := by
  unfold ofShadingOrBackground
  rw [ofShading_withoutBox]
  rcases h : ofShading s.withoutBox t data bounds with e | r
  · -- The background of an unusable shading is clipped as well.
    let fallback := (around s.withoutBox s.backgroundConversion t .nothing).value
    exact colorAt_clippedBy (r := fallback) rfl (s.clip t) q
  · exact colorAt_clippedBy (clip_eq_none h) (s.clip t) q

end Rasterizer

/-- Whether two shadings are usable alike and have the same color at a pixel, also if the color is
that of the background of an unusable shading. -/
def Shading.AgreeAt [Channel C K] [Scalar C] (s s' : Shading K C) (t : Affine K)
    (data : Array UInt8) (bounds : PixelRect) (q : Pixel) : Prop :=
  (Rasterizer.ofShading s t data bounds).map (·.value.colorAt q) =
      (Rasterizer.ofShading s' t data bounds).map (·.value.colorAt q) ∧
    (Rasterizer.ofShadingOrBackground s t data bounds).value.colorAt q =
      (Rasterizer.ofShadingOrBackground s' t data bounds).value.colorAt q

theorem Shading.agreeAt_withoutBox [Channel C K] [Scalar C] {s : Shading K C} {t : Affine K}
    {q : Pixel} (h : (s.clip t).any (·.excludes q.sample) = false) (data : Array UInt8)
    (bounds : PixelRect) : s.AgreeAt s.withoutBox t data bounds q := by
  refine ⟨?_, ?_⟩
  · rw [Rasterizer.colorAt_ofShading, h]
    rfl
  · rw [Rasterizer.colorAt_ofShadingOrBackground, h]
    rfl

end Clipping

/-! ## What a clip box leaves -/

namespace Shading

variable {C : Type} {s : Shading ℚ C} {b : Box ℚ} {t : Affine ℚ}

theorem clip_eq (h : s.box = some b) :
    s.clip t =
      if 0 < (b.image t).width && 0 < (b.image t).height then some (b.image t) else none := by
  rw [clip, h, ← Box.image_ordered]

variable [Channel C ℚ] [Scalar C]

/-- A pixel in the image of the box of a shading has the color that it would have without a box. -/
theorem agreeAt_of_mem_box (hbox : s.box = some b) {p : Point ℚ} (hp : b.Contains p) {q : Pixel}
    (hq : t.apply p = q.sample) (data : Array UInt8) (bounds : PixelRect) :
    s.AgreeAt s.withoutBox t data bounds q := by
  have himage := Box.excludes_image_apply hp t
  rw [hq] at himage
  refine agreeAt_withoutBox ?_ data bounds
  rw [clip_eq hbox]
  split
  · exact himage
  · rfl

/-- A triangle on a white background, turned and enlarged. The corners of the box are given from the
upper right to the lower left. -/
theorem agreeAt_of_mem_box_turned :
    let mesh : Mesh ℚ := .freeForm ⟨8, 8, 8, [0, 8, 0, 8, 0, 1]⟩
    let s : Shading ℚ ℚ := ⟨.mesh mesh, .gray, none, some [1], some ⟨4, 2, 0, 0⟩⟩
    let t : Affine ℚ := ⟨1, 1, -1, 1, 0, 0⟩
    let data : Array UInt8 := #[0, 0, 0, 0, 0, 255, 0, 128, 0, 0, 255, 255]
    let bounds : PixelRect := ⟨1, 2, 2, 2⟩
    let color (s : Shading ℚ ℚ) (q : Pixel) :=
      (Rasterizer.ofShadingOrBackground s t data bounds).value.colorAt q
    s.AgreeAt s.withoutBox t data bounds ⟨2, 3⟩ ∧ s.AgreeAt s.withoutBox t data bounds ⟨4, 4⟩ ∧
      color s ⟨2, 3⟩ = some ⟨55, 55, 55⟩ ∧ color s ⟨5, 5⟩ = none := by
  intro mesh s t data bounds color
  have hinner : (⟨4, 2, 0, 0⟩ : Box ℚ).Contains ⟨5 / 2, 1 / 2⟩ := by
    norm_num [Box.Contains, Set.mem_uIcc]
  have hcorner : (⟨4, 2, 0, 0⟩ : Box ℚ).Contains ⟨4, 0⟩ := by
    norm_num [Box.Contains, Set.mem_uIcc]
  refine ⟨agreeAt_of_mem_box rfl hinner ?_ data bounds,
    agreeAt_of_mem_box rfl hcorner ?_ data bounds, ?_, ?_⟩
  all_goals
    simp only [color, s, mesh, t, data, bounds]
    cbv

/-- A box without an area does not clip if its image lies along an axis. Otherwise it clips by the
box around its image, outside of which not even the background is painted. -/
theorem agreeAt_of_flat_box (hbox : s.box = some b) (hflat : b.x0 = b.x1 ∨ b.y0 = b.y1)
    (data : Array UInt8) (bounds : PixelRect) (q : Pixel) :
    let p := t.apply ⟨b.x0, b.y0⟩
    let r := t.apply ⟨b.x1, b.y1⟩
    (p.x = r.x ∨ p.y = r.y ∨ (Box.ofPoints p r).excludes q.sample = false →
        s.AgreeAt s.withoutBox t data bounds q) ∧
      (p.x ≠ r.x → p.y ≠ r.y → (Box.ofPoints p r).excludes q.sample = true →
        (Rasterizer.ofShadingOrBackground s t data bounds).value.colorAt q = none) := by
  intro p r
  have hclip : s.clip t = if 0 < (Box.ofPoints p r).width && 0 < (Box.ofPoints p r).height
      then some (Box.ofPoints p r) else none := by
    rw [clip_eq hbox, Box.image_of_flat hflat]
  simp only [Bool.and_eq_true, decide_eq_true_eq, Box.width_ofPoints_pos_iff,
    Box.height_ofPoints_pos_iff] at hclip
  refine ⟨fun hinside => agreeAt_withoutBox ?_ data bounds, fun hx hy houtside => ?_⟩
  · rw [hclip]
    split
    · next hoblique =>
      exact (hinside.resolve_left hoblique.1).resolve_left hoblique.2
    · rfl
  · have hclips : s.clip t = some (Box.ofPoints p r) := hclip.trans (if_pos ⟨hx, hy⟩)
    rw [Rasterizer.colorAt_ofShadingOrBackground, hclips, Option.any_some, if_pos houtside]

/-- The image of a box of width zero lies along an axis after a quarter turn, but not after an
eighth. -/
theorem agreeAt_of_flat_box_turned :
    let mesh : Mesh ℚ := .freeForm ⟨8, 8, 8, [0, 8, 0, 8, 0, 1]⟩
    let s : Shading ℚ ℚ := ⟨.mesh mesh, .gray, none, some [1], some ⟨3, 10, 3, 0⟩⟩
    let quarter : Affine ℚ := ⟨0, 1, -1, 0, 0, 0⟩
    let eighth : Affine ℚ := ⟨1, 1, -1, 1, 0, 0⟩
    let data : Array UInt8 := #[0, 0, 0, 0, 0, 255, 0, 128, 0, 0, 255, 255]
    let bounds : PixelRect := ⟨0, 0, 16, 16⟩
    (∀ q, s.AgreeAt s.withoutBox quarter data bounds q) ∧
      s.AgreeAt s.withoutBox eighth data bounds ⟨-2, 5⟩ ∧
      (Rasterizer.ofShadingOrBackground s eighth data bounds).value.colorAt ⟨5, 5⟩ = none := by
  intro mesh s quarter eighth data bounds
  have hflat (t : Affine ℚ) (q : Pixel) :=
    agreeAt_of_flat_box (s := s) (t := t) rfl (.inl rfl) data bounds q
  refine ⟨fun q => (hflat quarter q).1 (.inr (.inl ?_)),
    (hflat eighth ⟨-2, 5⟩).1 (.inr (.inr ?_)), (hflat eighth ⟨5, 5⟩).2 ?_ ?_ ?_⟩
  all_goals
    simp only [quarter, eighth]
    decide +kernel

/-- Turned by an eighth, a box of width zero takes the background from a pixel that is painted
without the box, and that is painted with it if nothing is turned. -/
theorem not_agreeAt_flat_box :
    let mesh : Mesh ℚ := .freeForm ⟨8, 8, 8, [0, 8, 0, 8, 0, 1]⟩
    let s : Shading ℚ ℚ := ⟨.mesh mesh, .gray, none, some [1], some ⟨0, 0, 0, 10⟩⟩
    let t : Affine ℚ := ⟨1, 1, -1, 1, 0, 0⟩
    let bounds : PixelRect := ⟨0, 0, 16, 16⟩
    ¬ s.AgreeAt s.withoutBox t #[] bounds ⟨5, 5⟩ ∧
      s.AgreeAt s.withoutBox .identity #[] bounds ⟨5, 5⟩ := by
  intro mesh s t bounds
  have hclipped :
      (Rasterizer.ofShadingOrBackground s t #[] bounds).value.colorAt ⟨5, 5⟩ = none := by cbv
  have hwhite : (Rasterizer.ofShadingOrBackground s.withoutBox t #[] bounds).value.colorAt ⟨5, 5⟩ =
      some ⟨255, 255, 255⟩ := by cbv
  refine ⟨fun h => ?_, agreeAt_withoutBox ?_ #[] bounds⟩
  · have hcolor := h.2
    rw [hclipped, hwhite] at hcolor
    cases hcolor
  · cbv

end Shading

end SmoothShading
