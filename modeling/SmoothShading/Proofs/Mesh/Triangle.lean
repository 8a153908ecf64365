import Mathlib
import SmoothShading.Mesh.Triangle
import SmoothShading.Proofs.Mesh.Line

/-!
# The points of a triangle

A point of a triangle with an area is a mean of the corners, with weights that are not negative in
either orientation (`Triangle.weights_nonneg_of_properContains`). So a triangle contains no points
away from its corners: unless it is painted as a line, each of them coincides with a point of the
box around the corners (`Triangle.exists_coincide_of_contains`).
-/

namespace SmoothShading

open Scalar

/-! ## Boxes -/

namespace Box

theorem excludes_eq_false_iff {b : Box ℚ} {p : Point ℚ} :
    b.excludes p = false ↔ (b.x0 ≤ p.x ∧ p.x ≤ b.x1) ∧ b.y0 ≤ p.y ∧ p.y ≤ b.y1 := by
  simp only [excludes, Bool.or_eq_false_iff, decide_eq_false_iff_not, not_lt, and_assoc]

end Box

/-! ## The inner side of an edge -/

theorem tolerance_rat : (tolerance : ℚ) = 1 / 1000 := rfl

theorem coincide_iff {p q : Point ℚ} :
    coincide p q = true ↔ |p.x - q.x| < 1 / 1000 ∧ |p.y - q.y| < 1 / 1000 := by
  simp only [coincide, abs_rat, tolerance_rat, Bool.and_eq_true, decide_eq_true_eq]

theorem coincide_self (p : Point ℚ) : coincide p p = true := by
  rw [coincide_iff]
  norm_num

theorem sideOf_nonpos_of_insideEdge {p a b : Point ℚ} (h : insideEdge p a b = true) :
    sideOf p a b ≤ 0 := by
  simp only [insideEdge] at h
  split at h
  · next h0 =>
    rw [beq_iff_eq] at h0
    exact (neg_eq_zero.mp h0).le
  · exact (neg_pos.mp (of_decide_eq_true h)).le

theorem signedArea_swap (a b c : Point ℚ) : signedArea a c b = -signedArea a b c := by
  simp only [signedArea]
  ring

theorem signedArea_rotate (a b c : Point ℚ) : signedArea b c a = signedArea a b c := by
  simp only [signedArea]
  ring

theorem sideOf_eq_signedArea (a b c : Point ℚ) : sideOf c a b = -2 * signedArea a b c := by
  simp only [sideOf, signedArea]
  ring

theorem signedArea_nonneg_of_insideEdge {p a b : Point ℚ} (h : insideEdge p a b = true) :
    0 ≤ signedArea a b p := by
  have hside := sideOf_nonpos_of_insideEdge h
  rw [sideOf_eq_signedArea] at hside
  linarith

theorem signedArea_nonpos_of_insideEdge {p a b : Point ℚ} (h : insideEdge p b a = true) :
    signedArea a b p ≤ 0 := by
  have hback := signedArea_nonneg_of_insideEdge h
  rw [← signedArea_rotate, signedArea_swap] at hback
  linarith

/-- A mean with weights lies between the bounds of what it is the mean of. -/
theorem mean_mem_of_weights {u v w a b c m lo hi : ℚ} (hu : 0 ≤ u) (hv : 0 ≤ v) (hw : 0 ≤ w)
    (hsum : 0 < u + v + w) (hm : u * a + v * b + w * c = (u + v + w) * m)
    (ha : lo ≤ a ∧ a ≤ hi) (hb : lo ≤ b ∧ b ≤ hi) (hc : lo ≤ c ∧ c ≤ hi) : lo ≤ m ∧ m ≤ hi := by
  constructor
  · refine le_of_mul_le_mul_left ?_ hsum
    calc (u + v + w) * lo = u * lo + v * lo + w * lo := by ring
      _ ≤ u * a + v * b + w * c := by gcongr; exacts [ha.1, hb.1, hc.1]
      _ = (u + v + w) * m := hm
  · refine le_of_mul_le_mul_left ?_ hsum
    calc (u + v + w) * m = u * a + v * b + w * c := hm.symm
      _ ≤ u * hi + v * hi + w * hi := by gcongr; exacts [ha.2, hb.2, hc.2]
      _ = (u + v + w) * hi := by ring

namespace Triangle

/-! ## Shapes -/

theorem eq_between_of_shape {K C : Type} [Scalar K] {t : Triangle K C} {l : Line K C}
    (h : t.shape = .line l) : l = Line.between t.ends.1 t.ends.2 := by
  unfold shape at h
  split at h
  · cases h
  · split at h
    · cases h
    · cases h
      rfl

theorem ends_mem {K C : Type} [Scalar K] (t : Triangle K C) :
    t.ends = (t.a, t.b) ∨ t.ends = (t.a, t.c) ∨ t.ends = (t.b, t.c) := by
  unfold ends
  dsimp only
  split
  · split
    · exact .inl rfl
    · exact .inr (.inr rfl)
  · split
    · exact .inr (.inl rfl)
    · exact .inr (.inr rfl)

theorem contains_of_proper {K C : Type} [Scalar K] {t : Triangle K C} (h : t.shape = .proper)
    (p : Point K) : t.contains p = t.properContains p := by
  rw [contains, h, containsAs]

theorem colorAt_of_proper {K C : Type} [Scalar K] [Channel C K] {t : Triangle K C}
    (h : t.shape = .proper) (p : Point K) : t.colorAt p = t.properColor p := by
  rw [colorAt, h, colorAs]

variable {C : Type} {t : Triangle ℚ C}

theorem shape_eq_proper_iff :
    t.shape = .proper ↔ t.coincidences = 0 ∧ 1 / 1000 ≤ |t.area| := by
  simp only [shape, abs_rat, tolerance_rat]
  split
  · next h2 =>
    constructor
    · intro h
      cases h
    · rintro ⟨h0, -⟩
      omega
  · split
    · next h => exact iff_of_true rfl h
    · next h => exact iff_of_false (by intro h'; cases h') h

theorem area_ne_zero_of_shape (h : t.shape = .proper) : t.area ≠ 0 := by
  obtain ⟨-, harea⟩ := shape_eq_proper_iff.mp h
  intro h0
  rw [h0, abs_zero] at harea
  norm_num at harea

/-! ## Weights -/

/-- In either orientation, a point of the triangle spans with each edge an area of the sign of the
whole. -/
theorem weights_nonneg_of_properContains {p : Point ℚ} (h : t.properContains p = true) :
    0 ≤ signedArea p t.b.point t.c.point / t.area ∧ 0 ≤ signedArea t.a.point p t.c.point / t.area ∧
      0 ≤ signedArea t.a.point t.b.point p / t.area := by
  rw [← signedArea_rotate p, ← signedArea_rotate t.a.point p, ← signedArea_rotate p]
  unfold properContains at h
  dsimp only at h
  split at h
  · next hpos =>
    rw [Bool.and_eq_true, Bool.and_eq_true] at h
    obtain ⟨⟨hab, hbc⟩, hca⟩ := h
    exact ⟨div_nonneg (signedArea_nonneg_of_insideEdge hbc) hpos.le,
      div_nonneg (signedArea_nonneg_of_insideEdge hca) hpos.le,
      div_nonneg (signedArea_nonneg_of_insideEdge hab) hpos.le⟩
  · next hneg =>
    rw [Bool.and_eq_true, Bool.and_eq_true] at h
    obtain ⟨⟨hac, hcb⟩, hba⟩ := h
    have hle : t.area ≤ 0 := not_lt.mp hneg
    exact ⟨div_nonneg_of_nonpos (signedArea_nonpos_of_insideEdge hcb) hle,
      div_nonneg_of_nonpos (signedArea_nonpos_of_insideEdge hac) hle,
      div_nonneg_of_nonpos (signedArea_nonpos_of_insideEdge hba) hle⟩

theorem weights_sum (harea : t.area ≠ 0) (p : Point ℚ) :
    signedArea p t.b.point t.c.point / t.area + signedArea t.a.point p t.c.point / t.area +
      signedArea t.a.point t.b.point p / t.area = 1 := by
  rw [← add_div, ← add_div, div_eq_one_iff_eq harea]
  simp only [area, signedArea]
  ring

/-! ## Points and boxes -/

theorem box_rat (t : Triangle ℚ C) :
    t.box =
      ⟨min (min t.a.point.x t.b.point.x) t.c.point.x, min (min t.a.point.y t.b.point.y) t.c.point.y,
        max (max t.a.point.x t.b.point.x) t.c.point.x,
        max (max t.a.point.y t.b.point.y) t.c.point.y⟩ := by
  simp only [box, Box.insert, Box.ofPoints, Box.ordered, minNum_rat, maxNum_rat]

/-- No corner lies outside of the box around the corners. -/
theorem box_excludes_corner {v : Vertex ℚ C} (hv : v = t.a ∨ v = t.b ∨ v = t.c) :
    t.box.excludes v.point = false := by
  rw [Box.excludes_eq_false_iff, box_rat]
  rcases hv with rfl | rfl | rfl
  · simp
  · simp
  · simp

/-- A triangle with an area contains no point outside of the box around it: its points are means of
the corners. -/
theorem excludes_eq_false_of_properContains {p : Point ℚ} (harea : t.area ≠ 0)
    (h : t.properContains p = true) : t.box.excludes p = false := by
  have ha := Box.excludes_eq_false_iff.mp (t.box_excludes_corner (.inl rfl))
  have hb := Box.excludes_eq_false_iff.mp (t.box_excludes_corner (.inr (.inl rfl)))
  have hc := Box.excludes_eq_false_iff.mp (t.box_excludes_corner (.inr (.inr rfl)))
  obtain ⟨hwa, hwb, hwc⟩ := weights_nonneg_of_properContains h
  have hsum := zero_lt_one.trans_eq (weights_sum harea p).symm
  refine Box.excludes_eq_false_iff.mpr ⟨mean_mem_of_weights hwa hwb hwc hsum ?_ ha.1 hb.1 hc.1,
    mean_mem_of_weights hwa hwb hwc hsum ?_ ha.2 hb.2 hc.2⟩
  · simp only [div_mul_eq_mul_div, ← add_div, signedArea]
    ring
  · simp only [div_mul_eq_mul_div, ← add_div, signedArea]
    ring

/-- Unless a triangle is a line, its points coincide with points of the box around it. -/
theorem exists_coincide_of_contains {p : Point ℚ} (hline : ∀ l, t.shape ≠ .line l)
    (h : t.contains p = true) : ∃ r, t.box.excludes r = false ∧ coincide r p = true := by
  unfold contains at h
  cases hshape : t.shape with
  | point =>
    rw [hshape] at h
    exact ⟨t.a.point, t.box_excludes_corner (.inl rfl), h⟩
  | line l => exact absurd hshape (hline l)
  | proper =>
    rw [hshape] at h
    have harea := area_ne_zero_of_shape hshape
    exact ⟨p, excludes_eq_false_of_properContains harea h, coincide_self p⟩

end Triangle

end SmoothShading
