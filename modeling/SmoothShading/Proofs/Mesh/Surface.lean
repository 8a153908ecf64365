import Mathlib
import SmoothShading.Mesh.Patch
import SmoothShading.Proofs.Exact

/-!
# The two surfaces of a patch

A Coons patch is the blend of its boundary curves, a tensor-product patch the sum of its control
points with their weights in both directions. `Patch.eval_spiral_ofPoints`: the inner control points
that `Grid.ofBoundary` adds to a boundary are those for which both surfaces are the same.

Both are linear in the weights of `u` and in those of `v`: the shares `1 - t` and `t` of a blend are
combinations of the weights (`bernstein_reverse`, `bernstein_linear`), and so is a boundary curve
(`Cubic.eval_eq_bernstein`). What is left is one identity between sixteen coefficients.
-/

namespace SmoothShading

/-! ## The weights -/

/-- The weights reproduce the parameter. -/
theorem bernstein_linear (t : ℚ) :
    t = (bernstein t).b1 * (1 / 3) + (bernstein t).b2 * (2 / 3) + (bernstein t).b3 := by
  simp only [bernstein]
  ring

/-- The weights reproduce what the parameter leaves of one. -/
theorem bernstein_reverse (t : ℚ) :
    1 - t = (bernstein t).b0 + (bernstein t).b1 * (2 / 3) + (bernstein t).b2 * (1 / 3) := by
  simp only [bernstein]
  ring

/-- Within the unit interval no weight is negative. -/
theorem bernstein_nonneg {t : ℚ} (h0 : 0 ≤ t) (h1 : t ≤ 1) :
    0 ≤ (bernstein t).b0 ∧ 0 ≤ (bernstein t).b1 ∧ 0 ≤ (bernstein t).b2 ∧ 0 ≤ (bernstein t).b3 := by
  have hs : 0 ≤ 1 - t := sub_nonneg.mpr h1
  simp only [bernstein]
  refine ⟨?_, ?_, ?_, ?_⟩
  all_goals positivity

/-- A cubic curve is the sum of its control points with their weights. -/
theorem Cubic.eval_eq_bernstein (c : Cubic ℚ) (t : ℚ) :
    c.eval t = c.p0 * (bernstein t).b0 + c.p1 * (bernstein t).b1 + c.p2 * (bernstein t).b2 +
      c.p3 * (bernstein t).b3 := by
  ext
  · simp only [Cubic.eval, bernstein, Point.add_x, Point.mul_x]
    ring
  · simp only [Cubic.eval, bernstein, Point.add_y, Point.mul_y]
    ring

/-! ## The surfaces -/

namespace Grid

/-- The order in which a stream states sixteen points loses none of them. -/
theorem ofSpiral_spiral {K : Type} (g : Grid K) : ofSpiral g.spiral = g := rfl

/-- The surface of a boundary is the same as a blend and as a sum. -/
theorem coonsEval_ofBoundary (boundary : Vector (Point ℚ) 12) (u v : ℚ) :
    (ofBoundary boundary).coonsEval u v = (ofBoundary boundary).tensorEval u v := by
  have hu := bernstein_linear u
  have hv := bernstein_linear v
  have hu' := bernstein_reverse u
  have hv' := bernstein_reverse v
  simp only [coonsEval, tensorEval, Cubic.eval_eq_bernstein, hu', hv']
  generalize bernstein u = bu at hu ⊢
  generalize bernstein v = bv at hv ⊢
  rw [hu, hv]
  ext
  · simp only [ofBoundary, column0, column3, coonsInner, Point.add_x, Point.sub_x, Point.mul_x]
    ring
  · simp only [ofBoundary, column0, column3, coonsInner, Point.add_y, Point.sub_y, Point.mul_y]
    ring

end Grid

/-- A Coons patch and the tensor-product patch of its whole grid are the same surface. -/
theorem Patch.eval_spiral_ofPoints {C : Type} (boundary : Vector (Point ℚ) 12)
    (colors colors' : Vector (Color C) 4) (u v : ℚ) :
    let coons : Patch ℚ C := ofPoints .coons boundary colors
    coons.eval u v = (ofPoints .tensor coons.grid.spiral colors' : Patch ℚ C).eval u v := by
  intro coons
  change coons.grid.coonsEval u v = (Grid.ofSpiral coons.grid.spiral).tensorEval u v
  rw [Grid.ofSpiral_spiral]
  exact Grid.coonsEval_ofBoundary boundary u v

end SmoothShading
