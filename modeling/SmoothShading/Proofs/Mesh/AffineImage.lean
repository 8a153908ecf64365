import Mathlib
import SmoothShading.Proofs.Mesh.Surface

/-!
# Patches under affine maps

Every point of the surface of a patch is a sum of control points whose weights add up to one
(`bernstein_sum`). So an affine map of the plane may be applied to the control points or to the
surface (`Patch.vertexAt_mapPoints_apply`), and as the inner points of a Coons patch are such sums
as well, to the points from which a patch is made (`Patch.ofPoints_map_apply`). Nothing is asked of
the map: it may take the plane to a line or to a point.
-/

namespace SmoothShading

/-! ## Curves -/

theorem bernstein_sum (t : ℚ) :
    (bernstein t).b0 = 1 - (bernstein t).b1 - (bernstein t).b2 - (bernstein t).b3 := by
  simp only [bernstein]
  ring

namespace Cubic

/-- Applies a map to every control point. -/
def map {K L : Type} (f : Point K → Point L) (c : Cubic K) : Cubic L :=
  ⟨f c.p0, f c.p1, f c.p2, f c.p3⟩

theorem eval_map_apply (t : Affine ℚ) (c : Cubic ℚ) (s : ℚ) :
    (c.map t.apply).eval s = t.apply (c.eval s) := by
  simp only [eval_eq_bernstein, bernstein_sum]
  generalize bernstein s = b
  ext
  all_goals
    simp only [map, Affine.apply, Point.add_x, Point.add_y, Point.mul_x, Point.mul_y]
    ring

end Cubic

/-! ## Surfaces -/

namespace Grid

variable (t : Affine ℚ) (g : Grid ℚ)

theorem coonsEval_map_apply (u v : ℚ) :
    (g.map t.apply).coonsEval u v = t.apply (g.coonsEval u v) := by
  have hrow0 := Cubic.eval_map_apply t g.row0 v
  have hrow3 := Cubic.eval_map_apply t g.row3 v
  have hcolumn0 := Cubic.eval_map_apply t g.column0 u
  have hcolumn3 := Cubic.eval_map_apply t g.column3 u
  simp only [Cubic.map, column0, column3] at hrow0 hrow3 hcolumn0 hcolumn3
  simp only [coonsEval, map, column0, column3, hrow0, hrow3, hcolumn0, hcolumn3]
  ext
  all_goals
    simp only [Affine.apply, Point.add_x, Point.add_y, Point.sub_x, Point.sub_y, Point.mul_x,
      Point.mul_y]
    ring

/-- A tensor-product surface is a cubic curve through points of cubic curves. -/
theorem tensorEval_eq_eval (u v : ℚ) :
    g.tensorEval u v =
      (⟨g.row0.eval v, g.row1.eval v, g.row2.eval v, g.row3.eval v⟩ : Cubic ℚ).eval u := by
  simp only [tensorEval, Cubic.eval_eq_bernstein]
  ext
  all_goals
    simp only [Point.add_x, Point.add_y, Point.mul_x, Point.mul_y]
    ring

theorem tensorEval_map_apply (u v : ℚ) :
    (g.map t.apply).tensorEval u v = t.apply (g.tensorEval u v) := by
  have hrow (r : Cubic ℚ) := Cubic.eval_map_apply t r v
  rw [tensorEval_eq_eval, tensorEval_eq_eval, ← Cubic.eval_map_apply]
  simp only [Cubic.map] at hrow
  simp only [Cubic.map, map, hrow]

theorem coonsInner_apply (p₁ p₂ p₃ p₄ p₅ p₆ p₇ p₈ : Point ℚ) :
    coonsInner (t.apply p₁) (t.apply p₂) (t.apply p₃) (t.apply p₄) (t.apply p₅) (t.apply p₆)
      (t.apply p₇) (t.apply p₈) = t.apply (coonsInner p₁ p₂ p₃ p₄ p₅ p₆ p₇ p₈) := by
  ext
  all_goals
    simp only [coonsInner, Affine.apply, Point.add_x, Point.add_y, Point.sub_x, Point.sub_y,
      Point.mul_x, Point.mul_y]
    ring

theorem ofBoundary_map_apply (v : Vector (Point ℚ) 12) :
    ofBoundary (v.map t.apply) = (ofBoundary v).map t.apply := by
  simp only [ofBoundary, Vector.getElem_map, coonsInner_apply, map]

theorem ofSpiral_map {K : Type} (f : Point K → Point K) (v : Vector (Point K) 16) :
    ofSpiral (v.map f) = (ofSpiral v).map f := by
  simp only [ofSpiral, Vector.getElem_map, map]

end Grid

/-! ## Patches -/

/-- Applies a map to every point of a side. -/
def SharedSide.mapPoints {K C : Type} (f : Point K → Point K) (side : SharedSide K C) :
    SharedSide K C :=
  { side with curve := side.curve.map f }

namespace Patch

variable {C : Type}

/-- Applies a map to every control point and keeps the colors. -/
def mapPoints {K : Type} (f : Point K → Point K) (p : Patch K C) : Patch K C :=
  { p with grid := p.grid.map f }

theorem gridOf_map_apply (t : Affine ℚ) (kind : PatchKind)
    (points : Vector (Point ℚ) kind.points) :
    gridOf kind (points.map t.apply) = (gridOf kind points).map t.apply := by
  cases kind with
  | coons => exact Grid.ofBoundary_map_apply t points
  | tensor => exact Grid.ofSpiral_map t.apply points

theorem ofPoints_map_apply (t : Affine ℚ) (kind : PatchKind)
    (points : Vector (Point ℚ) kind.points) (colors : Vector (Color C) 4) :
    ofPoints kind (points.map t.apply) colors =
      (ofPoints kind points colors).mapPoints t.apply := by
  simp only [ofPoints, mapPoints, gridOf_map_apply]

theorem sideAt_mapPoints {K : Type} (f : Point K → Point K) (p : Patch K C) (side : Side) :
    (p.mapPoints f).sideAt side = (p.sideAt side).mapPoints f := by
  cases side <;> rfl

theorem ofSide_map_apply (t : Affine ℚ) (kind : PatchKind) (side : SharedSide ℚ C)
    (points : Vector (Point ℚ) kind.innerPoints) (colors : Vector (Color C) 2) :
    ofSide kind (side.mapPoints t.apply) (points.map t.apply) colors =
      (ofSide kind side points colors).mapPoints t.apply := by
  have hpoints : #v[t.apply side.curve.p0, t.apply side.curve.p1, t.apply side.curve.p2,
      t.apply side.curve.p3] ++ points.map t.apply =
      (#v[side.curve.p0, side.curve.p1, side.curve.p2, side.curve.p3] ++ points).map t.apply := by
    simp only [Vector.map_append, Vector.map_mk, List.map_toArray, List.map_cons, List.map_nil]
  exact (congrArg (ofPoints kind · (#v[side.startColor, side.stopColor] ++ colors)) hpoints).trans
    (ofPoints_map_apply t kind _ _)

theorem eval_mapPoints_apply (p : Patch ℚ C) (t : Affine ℚ) (u v : ℚ) :
    (p.mapPoints t.apply).eval u v = t.apply (p.eval u v) := by
  obtain ⟨kind, grid, _, _, _, _⟩ := p
  cases kind with
  | coons => exact Grid.coonsEval_map_apply t grid u v
  | tensor => exact Grid.tensorEval_map_apply t grid u v

theorem vertexAt_mapPoints_apply [Channel C ℚ] (p : Patch ℚ C) (t : Affine ℚ) (u v : ℚ) :
    (p.mapPoints t.apply).vertexAt u v = (p.vertexAt u v).mapPoint t.apply :=
  congrArg (Vertex.mk · (p.colorAt u v)) (p.eval_mapPoints_apply t u v)

end Patch

end SmoothShading
