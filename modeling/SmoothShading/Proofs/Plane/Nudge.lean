import Mathlib
import SmoothShading.Plane.Orientation
import SmoothShading.Proofs.Exact

/-!
# Points on edges, moved off them

The rule that gives a point of an edge to one of the two triangles beside it decides as if the
point were moved a little, by `ε` along the x axis and by `ε ^ 2` along the y axis (`Point.nudge`).
For all small `ε` the moved point lies on no edge, and on the inner side of just those edges that
take the point (`eventually_insideEdge_iff`). So what holds of the points away from all edges also
holds of the points on edges and in corners, whatever edges meet there.
-/

namespace SmoothShading

open Filter Topology

/-! ## The two directions of an edge -/

theorem sideOf_swap (p a b : Point ℚ) : sideOf p b a = -sideOf p a b := by
  simp only [sideOf]
  ring

theorem insideEdge_iff {p a b : Point ℚ} :
    insideEdge p a b = true ↔
      sideOf p a b < 0 ∨
        sideOf p a b = 0 ∧ (b.y - a.y < 0 ∨ b.y - a.y = 0 ∧ 0 < b.x - a.x) := by
  simp only [insideEdge, beq_iff_eq, neg_eq_zero, Point.sub_x, Point.sub_y]
  split
  · next h0 => simp [h0]
  · next h0 => simp [h0]

/-- In one of its two directions an edge takes the point. -/
theorem insideEdge_or_swap {a b : Point ℚ} (hab : a ≠ b) (p : Point ℚ) :
    insideEdge p a b = true ∨ insideEdge p b a = true := by
  rw [insideEdge_iff, insideEdge_iff, sideOf_swap p a b]
  rcases lt_trichotomy (sideOf p a b) 0 with h | h | h
  · exact .inl (.inl h)
  · rcases lt_trichotomy (b.y - a.y) 0 with hy | hy | hy
    · exact .inl (.inr ⟨h, .inl hy⟩)
    · have hx : b.x - a.x ≠ 0 := by
        intro hx
        exact hab (Point.ext (sub_eq_zero.mp hx).symm (sub_eq_zero.mp hy).symm)
      rcases lt_or_gt_of_ne hx with hx | hx
      · exact .inr (.inr ⟨by linarith, .inr ⟨by linarith, by linarith⟩⟩)
      · exact .inl (.inr ⟨h, .inr ⟨hy, hx⟩⟩)
    · exact .inr (.inr ⟨by linarith, .inl (by linarith)⟩)
  · exact .inr (.inl (by linarith))

/-! ## Small steps -/

/-- The point moved by `ε` along the x axis, and by much less along the y axis. -/
def Point.nudge (p : Point ℚ) (ε : ℚ) : Point ℚ := ⟨p.x + ε, p.y + ε ^ 2⟩

theorem Point.nudge_zero (p : Point ℚ) : p.nudge 0 = p := by
  ext <;> simp [nudge]

theorem sideOf_nudge (p a b : Point ℚ) (ε : ℚ) :
    sideOf (p.nudge ε) a b = sideOf p a b + ε * ((b.y - a.y) - (b.x - a.x) * ε) := by
  simp only [sideOf, Point.nudge]
  ring

theorem eventually_neg {f : ℚ → ℚ} (hf : ContinuousAt f 0) (h0 : f 0 < 0) :
    ∀ᶠ ε in 𝓝[>] (0 : ℚ), f ε < 0 :=
  (hf.eventually_lt_const h0).filter_mono nhdsWithin_le_nhds

/-- A small step does not leave the side of a line. The factor `k` tells which side this is. -/
theorem eventually_mul_sideOf_neg {p a b : Point ℚ} {k : ℚ} (h : k * sideOf p a b < 0) :
    ∀ᶠ ε in 𝓝[>] (0 : ℚ), k * sideOf (p.nudge ε) a b < 0 := by
  simp only [sideOf_nudge]
  refine eventually_neg (by fun_prop) ?_
  rw [zero_mul, add_zero]
  exact h

/-- A small step from an edge that takes the point goes to its inner side. -/
theorem eventually_sideOf_neg {p a b : Point ℚ} (h : insideEdge p a b = true) :
    ∀ᶠ ε in 𝓝[>] (0 : ℚ), sideOf (p.nudge ε) a b < 0 := by
  rcases insideEdge_iff.mp h with hneg | ⟨h0, hy | ⟨hy, hx⟩⟩
  · filter_upwards [eventually_mul_sideOf_neg (k := 1) (by rwa [one_mul])] with ε hε
    rwa [one_mul] at hε
  · have hstep : ∀ᶠ ε in 𝓝[>] (0 : ℚ), (b.y - a.y) - (b.x - a.x) * ε < 0 := by
      refine eventually_neg (by fun_prop) ?_
      rw [mul_zero, sub_zero]
      exact hy
    filter_upwards [self_mem_nhdsWithin, hstep] with ε hε hsmall
    rw [sideOf_nudge, h0, zero_add]
    exact mul_neg_of_pos_of_neg hε hsmall
  · filter_upwards [self_mem_nhdsWithin] with ε hε
    rw [sideOf_nudge, h0, hy, zero_add, zero_sub]
    exact mul_neg_of_pos_of_neg hε (neg_neg_of_pos (mul_pos hx hε))

theorem eventually_insideEdge_iff {a b : Point ℚ} (hab : a ≠ b) (p : Point ℚ) :
    ∀ᶠ ε in 𝓝[>] (0 : ℚ),
      sideOf (p.nudge ε) a b ≠ 0 ∧ (insideEdge p a b = true ↔ sideOf (p.nudge ε) a b < 0) := by
  by_cases h : insideEdge p a b = true
  · filter_upwards [eventually_sideOf_neg h] with ε hε
    exact ⟨hε.ne, iff_of_true h hε⟩
  · have hswap := (insideEdge_or_swap hab p).resolve_left h
    filter_upwards [eventually_sideOf_neg hswap] with ε hε
    rw [sideOf_swap] at hε
    have hpos : 0 < sideOf (p.nudge ε) a b := neg_neg_iff_pos.mp hε
    exact ⟨hpos.ne', iff_of_false h hpos.not_gt⟩

end SmoothShading
