import Mathlib
import SmoothShading.Mesh.Patch.Tessellation
import SmoothShading.Proofs.Mesh.AffineImage

/-!
# Flat curves

Detail may be saved along a boundary curve that is drawn as its chord. A curve with two different
ends stays within one pixel of the line through them if it is (`Patch.isFlat_of_level_lt`).

The test of `Cubic.isStraight` is about areas: those that the inner control points span with the
chord are bounded by the extent of the chord along one of the axes. An area is the length of the
chord times the distance from it, and the chord is not shorter than its extent, so neither inner
control point is more than one pixel off. The curve is no farther off than they are
(`Cubic.abs_sideOf_eval_le`).

Without a chord there is no area either, and the test says nothing: a curve that ends where it
starts passes it, however far it goes in between (`Cubic.isStraight_of_closed`).
-/

namespace SmoothShading

open Scalar

/-! ## The distance from a line -/

/-- The share of the way from `a` to `b` at which the line through both is closest to `p`. -/
def footShare (p a b : Point ℚ) : ℚ := (p - a).dot (b - a) / a.distSq b

theorem distSq_rat (a b : Point ℚ) : a.distSq b = (a.x - b.x) ^ 2 + (a.y - b.y) ^ 2 := by
  simp only [Point.distSq, Point.normSq, Point.dot, Point.sub_x, Point.sub_y]
  ring

theorem distSq_pos {a b : Point ℚ} (hne : a ≠ b) : 0 < a.distSq b := by
  rw [distSq_rat]
  by_cases hx : a.x = b.x
  · have hy : a.y ≠ b.y := fun hy => hne (Point.ext hx hy)
    exact add_pos_of_nonneg_of_pos (sq_nonneg _) (sq_pos_of_ne_zero (sub_ne_zero.mpr hy))
  · exact add_pos_of_pos_of_nonneg (sq_pos_of_ne_zero (sub_ne_zero.mpr hx)) (sq_nonneg _)

/-- An area is a distance from a line times the distance of two points of the line. -/
theorem distSq_foot_mul {a b : Point ℚ} (hne : a ≠ b) (p : Point ℚ) :
    p.distSq (a + (b - a) * footShare p a b) * a.distSq b = sideOf p a b ^ 2 := by
  have hpos := distSq_pos hne
  have hshare : footShare p a b * a.distSq b = (p - a).dot (b - a) :=
    div_mul_cancel₀ _ hpos.ne'
  generalize footShare p a b = s at hshare ⊢
  simp only [distSq_rat, Point.dot, sideOf, Point.add_x, Point.add_y, Point.sub_x, Point.sub_y,
    Point.mul_x, Point.mul_y] at hshare ⊢
  linear_combination
    (s * ((a.x - b.x) ^ 2 + (a.y - b.y) ^ 2) -
      ((p.x - a.x) * (b.x - a.x) + (p.y - a.y) * (b.y - a.y))) * hshare

/-- An area that is bounded by an extent of a segment belongs to a point close to its line. -/
theorem exists_distSq_le_one {p a b : Point ℚ} (hne : a ≠ b)
    (h : |sideOf p a b| ≤ |a.x - b.x| ∨ |sideOf p a b| ≤ |a.y - b.y|) :
    ∃ s : ℚ, p.distSq (a + (b - a) * s) ≤ 1 := by
  have hpos := distSq_pos hne
  have hside : sideOf p a b ^ 2 ≤ a.distSq b := by
    rw [distSq_rat]
    rcases h with hx | hy
    · exact (sq_le_sq.mpr hx).trans (le_add_of_nonneg_right (sq_nonneg _))
    · exact (sq_le_sq.mpr hy).trans (le_add_of_nonneg_left (sq_nonneg _))
  refine ⟨footShare p a b, le_of_mul_le_mul_right ?_ hpos⟩
  rwa [distSq_foot_mul hne, one_mul]

namespace Cubic

/-! ## Curves and their chords -/

/-- No point of the curve is more than one pixel away from the line through its ends, or from the
point that is both ends. -/
def IsFlat (c : Cubic ℚ) : Prop :=
  ∀ t, 0 ≤ t → t ≤ 1 → ∃ s : ℚ, (c.eval t).distSq (c.p0 + (c.p3 - c.p0) * s) ≤ 1

/-- Only the inner control points lift a curve off its chord. -/
theorem sideOf_eval (c : Cubic ℚ) (t : ℚ) :
    sideOf (c.eval t) c.p0 c.p3 =
      (bernstein t).b1 * sideOf c.p1 c.p0 c.p3 + (bernstein t).b2 * sideOf c.p2 c.p0 c.p3 := by
  simp only [eval, bernstein, sideOf, Point.add_x, Point.add_y, Point.mul_x, Point.mul_y]
  ring

theorem abs_sideOf_eval_le (c : Cubic ℚ) {t m : ℚ} (h0 : 0 ≤ t) (h1 : t ≤ 1)
    (hp1 : |sideOf c.p1 c.p0 c.p3| ≤ m) (hp2 : |sideOf c.p2 c.p0 c.p3| ≤ m) :
    |sideOf (c.eval t) c.p0 c.p3| ≤ m := by
  have hm : 0 ≤ m := (abs_nonneg _).trans hp1
  obtain ⟨hb0, hb1, hb2, hb3⟩ := bernstein_nonneg h0 h1
  have hsum := bernstein_sum t
  calc |sideOf (c.eval t) c.p0 c.p3|
      = |(bernstein t).b1 * sideOf c.p1 c.p0 c.p3 +
          (bernstein t).b2 * sideOf c.p2 c.p0 c.p3| := by rw [sideOf_eval]
    _ ≤ (bernstein t).b1 * |sideOf c.p1 c.p0 c.p3| +
          (bernstein t).b2 * |sideOf c.p2 c.p0 c.p3| := by
        refine (abs_add_le _ _).trans_eq ?_
        rw [abs_mul, abs_mul, abs_of_nonneg hb1, abs_of_nonneg hb2]
    _ ≤ (bernstein t).b1 * m + (bernstein t).b2 * m := by gcongr
    _ = ((bernstein t).b1 + (bernstein t).b2) * m := by ring
    _ ≤ 1 * m := by gcongr; linarith
    _ = m := one_mul m

theorem isStraight_iff (c : Cubic ℚ) :
    c.isStraight = true ↔
      (|sideOf c.p1 c.p0 c.p3| ≤ |c.p0.x - c.p3.x| ∧ |sideOf c.p2 c.p0 c.p3| ≤ |c.p0.x - c.p3.x|) ∨
        |sideOf c.p1 c.p0 c.p3| ≤ |c.p0.y - c.p3.y| ∧
          |sideOf c.p2 c.p0 c.p3| ≤ |c.p0.y - c.p3.y| := by
  simp only [isStraight, abs_rat, Bool.or_eq_true, Bool.and_eq_true, decide_eq_true_eq]

/-- What is taken as straight is flat, if it has a chord. -/
theorem isFlat_of_isStraight {c : Cubic ℚ} (h : c.isStraight = true) (hends : c.p0 ≠ c.p3) :
    c.IsFlat := by
  intro t h0 h1
  refine exists_distSq_le_one hends ?_
  rcases (isStraight_iff c).mp h with ⟨hp1, hp2⟩ | ⟨hp1, hp2⟩
  · exact .inl (c.abs_sideOf_eval_le h0 h1 hp1 hp2)
  · exact .inr (c.abs_sideOf_eval_le h0 h1 hp1 hp2)

/-- A curve without a chord is taken as straight, wherever its inner control points are. -/
theorem isStraight_of_closed {c : Cubic ℚ} (h : c.p0 = c.p3) : c.isStraight = true := by
  refine (isStraight_iff c).mpr (.inl ?_)
  simp [sideOf, h]

end Cubic

namespace Patch

variable {C : Type}

/-! ## Levels -/

theorem levelBetween_of_curved {inner : List (Point ℚ)} {c d : Cubic ℚ}
    (h : c.isStraight = false ∨ d.isStraight = false) : levelBetween inner c d = finestLevel := by
  have hcurved : (c.isStraight && d.isStraight) = false := by
    rw [Bool.and_eq_false_iff]
    exact h
  simp only [levelBetween, hcurved, Bool.false_and, Bool.false_eq_true, if_false]

/-- Detail is saved only where both curves are taken as straight. -/
theorem isStraight_of_levelBetween_lt {inner : List (Point ℚ)} {c d : Cubic ℚ}
    (h : levelBetween inner c d < finestLevel) : c.isStraight = true ∧ d.isStraight = true := by
  by_contra hcurved
  rw [not_and_or, Bool.not_eq_true, Bool.not_eq_true] at hcurved
  exact h.ne (levelBetween_of_curved hcurved)

/-- A boundary curve along which a patch is not sampled at the finest level is flat, if its ends are
different points. -/
theorem isFlat_of_level_lt {p : Patch ℚ C} {c : Cubic ℚ}
    (h : (p.levelU < finestLevel ∧ (c = p.grid.column0 ∨ c = p.grid.column3)) ∨
      p.levelV < finestLevel ∧ (c = p.grid.row0 ∨ c = p.grid.row3))
    (hends : c.p0 ≠ c.p3) : c.IsFlat := by
  refine Cubic.isFlat_of_isStraight ?_ hends
  rcases h with ⟨hlevel, hc⟩ | ⟨hlevel, hc⟩
  · obtain ⟨h0, h3⟩ := isStraight_of_levelBetween_lt hlevel
    rcases hc with rfl | rfl
    · exact h0
    · exact h3
  · obtain ⟨h0, h3⟩ := isStraight_of_levelBetween_lt hlevel
    rcases hc with rfl | rfl
    · exact h0
    · exact h3

/-- A side that is bent to both sides of its chord. -/
theorem isFlat_of_level_lt_bent :
    let p : Patch ℚ ℚ := ofPoints .coons
      #v[⟨0, 0⟩, ⟨30, 3 / 4⟩, ⟨60, -1⟩, ⟨90, 0⟩, ⟨90, 20⟩, ⟨90, 40⟩, ⟨90, 60⟩, ⟨60, 60⟩, ⟨30, 60⟩,
        ⟨0, 60⟩, ⟨0, 40⟩, ⟨0, 20⟩]
      #v[[0], [1 / 4], [1 / 2], [1]]
    p.levelV < finestLevel ∧ p.grid.row0.p0 ≠ p.grid.row0.p3 ∧ p.grid.row0.IsFlat := by
  intro p
  have hlevel : p.levelV < finestLevel := by decide +kernel
  have hends : p.grid.row0.p0 ≠ p.grid.row0.p3 := fun h =>
    absurd (congrArg Point.x h) (by decide +kernel)
  exact ⟨hlevel, hends, isFlat_of_level_lt (.inr ⟨hlevel, .inl rfl⟩) hends⟩

/-- A side that is a loop is sampled at three points, though it goes more than fifty pixels away
from its ends. -/
theorem not_isFlat_loop :
    let p : Patch ℚ ℚ := ofPoints .coons
      #v[⟨0, 0⟩, ⟨96, 0⟩, ⟨0, 96⟩, ⟨0, 0⟩, ⟨0, -20⟩, ⟨0, -40⟩, ⟨0, -60⟩, ⟨-20, -60⟩, ⟨-40, -60⟩,
        ⟨-60, -60⟩, ⟨-40, -40⟩, ⟨-20, -20⟩]
      #v[[0], [1 / 4], [1 / 2], [1]]
    p.levelV = 1 ∧ p.levelV < finestLevel ∧ ¬ p.grid.row0.IsFlat := by
  intro p
  refine ⟨by decide +kernel, by decide +kernel, fun h => ?_⟩
  obtain ⟨s, hs⟩ := h (1 / 2) (by norm_num) (by norm_num)
  have hmiddle : p.grid.row0.eval (1 / 2) = ⟨36, 36⟩ :=
    Point.ext (by decide +kernel) (by decide +kernel)
  have hfoot : p.grid.row0.p0 + (p.grid.row0.p3 - p.grid.row0.p0) * s = ⟨0, 0⟩ := by
    change (⟨0 + (0 - 0) * s, 0 + (0 - 0) * s⟩ : Point ℚ) = ⟨0, 0⟩
    rw [sub_zero, zero_mul, add_zero]
  rw [hmiddle, hfoot, distSq_rat] at hs
  norm_num at hs

end Patch

end SmoothShading
