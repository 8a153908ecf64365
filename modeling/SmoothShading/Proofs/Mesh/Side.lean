import Mathlib
import SmoothShading.Proofs.Mesh.Surface

/-!
# Sides of patches

On the sides of the unit square both kinds of surfaces are boundary curves, and the color changes
evenly between two corners. So a patch that begins with a side of another one meets that patch along
the whole side, in position and in color (`Patch.meets_ofSide`).
-/

namespace SmoothShading

/-! ## The ends of curves and weights -/

theorem bernstein_zero : (bernstein 0 : Bernstein ℚ) = ⟨1, 0, 0, 0⟩ := by
  simp [bernstein]

theorem bernstein_one : (bernstein 1 : Bernstein ℚ) = ⟨0, 0, 0, 1⟩ := by
  simp [bernstein]

namespace Cubic

theorem eval_zero (c : Cubic ℚ) : c.eval 0 = c.p0 := by
  ext <;> simp [eval_eq_bernstein, bernstein_zero]

theorem eval_one (c : Cubic ℚ) : c.eval 1 = c.p3 := by
  ext <;> simp [eval_eq_bernstein, bernstein_one]

theorem eval_reverse (c : Cubic ℚ) (t : ℚ) : c.reverse.eval t = c.eval (1 - t) := by
  simp only [eval_eq_bernstein, reverse, bernstein]
  ext
  · simp only [Point.add_x, Point.mul_x]
    ring
  · simp only [Point.add_y, Point.mul_y]
    ring

end Cubic

/-! ## Surfaces on the sides of the square -/

namespace Grid

variable (g : Grid ℚ)

theorem coonsEval_sides (s : ℚ) :
    g.coonsEval 0 s = g.row0.eval s ∧ g.coonsEval 1 s = g.row3.eval s ∧
      g.coonsEval s 0 = g.column0.eval s ∧ g.coonsEval s 1 = g.column3.eval s := by
  simp only [coonsEval, Cubic.eval_zero, Cubic.eval_one]
  refine ⟨?_, ?_, ?_, ?_⟩
  all_goals
    ext
    · simp only [column0, column3, Point.add_x, Point.sub_x, Point.mul_x]
      ring
    · simp only [column0, column3, Point.add_y, Point.sub_y, Point.mul_y]
      ring

theorem tensorEval_sides (s : ℚ) :
    g.tensorEval 0 s = g.row0.eval s ∧ g.tensorEval 1 s = g.row3.eval s ∧
      g.tensorEval s 0 = g.column0.eval s ∧ g.tensorEval s 1 = g.column3.eval s := by
  simp only [tensorEval, Cubic.eval_eq_bernstein, bernstein_zero, bernstein_one]
  refine ⟨?_, ?_, ?_, ?_⟩
  all_goals
    ext
    · simp only [column0, column3, Point.add_x, Point.mul_x]
      ring
    · simp only [column0, column3, Point.add_y, Point.mul_y]
      ring

end Grid

/-- The place in the unit square of a point of a side. -/
def Side.place : Side → ℚ → ℚ × ℚ
  | vOne, s => (s, 1)
  | uOne, s => (1, 1 - s)
  | vZero, s => (1 - s, 0)

namespace Patch

variable {C : Type} (p : Patch ℚ C)

/-- Both kinds of surfaces have the boundary curves of the grid. -/
theorem eval_sides (s : ℚ) :
    p.eval 0 s = p.grid.row0.eval s ∧ p.eval 1 s = p.grid.row3.eval s ∧
      p.eval s 0 = p.grid.column0.eval s ∧ p.eval s 1 = p.grid.column3.eval s := by
  unfold eval
  cases p.kind
  · exact p.grid.coonsEval_sides s
  · exact p.grid.tensorEval_sides s

theorem eval_place (side : Side) (s : ℚ) :
    p.eval (side.place s).1 (side.place s).2 = (p.sideAt side).curve.eval s := by
  cases side with
  | vOne =>
    obtain ⟨-, -, -, h⟩ := p.eval_sides s
    exact h
  | uOne =>
    obtain ⟨-, h, -, -⟩ := p.eval_sides (1 - s)
    exact h.trans (Cubic.eval_reverse _ s).symm
  | vZero =>
    obtain ⟨-, -, h, -⟩ := p.eval_sides (1 - s)
    exact h.trans (Cubic.eval_reverse _ s).symm

/-- The first four points of a patch are its first row. -/
theorem row0_gridOf_append (kind : PatchKind) (c : Cubic ℚ)
    (points : Vector (Point ℚ) kind.innerPoints) :
    (gridOf kind (#v[c.p0, c.p1, c.p2, c.p3] ++ points)).row0 = c := by
  obtain ⟨p0, p1, p2, p3⟩ := c
  let first : Vector (Point ℚ) 4 := #v[p0, p1, p2, p3]
  have hget (i : ℕ) (hi : i < 4) : (first ++ points)[i] = first[i] :=
    Vector.getElem_append_left hi
  cases kind with
  | coons =>
    simp only [gridOf, Grid.ofBoundary, Cubic.mk.injEq]
    exact ⟨hget 0 (by decide), hget 1 (by decide), hget 2 (by decide), hget 3 (by decide)⟩
  | tensor =>
    simp only [gridOf, Grid.ofSpiral, Cubic.mk.injEq]
    exact ⟨hget 0 (by decide), hget 1 (by decide), hget 2 (by decide), hget 3 (by decide)⟩

/-- A patch that begins with a side has the curve of that side at `u = 0`. -/
theorem eval_ofSide (kind : PatchKind) (side : SharedSide ℚ C)
    (points : Vector (Point ℚ) kind.innerPoints) (colors : Vector (Color C) 2) (s : ℚ) :
    (ofSide kind side points colors).eval 0 s = side.curve.eval s := by
  obtain ⟨h, -, -, -⟩ := (ofSide kind side points colors).eval_sides s
  have hrow : (ofSide kind side points colors).grid.row0 = side.curve :=
    row0_gridOf_append kind _ points
  rw [h, hrow]

/-! ## Colors on the sides of the square -/

/-- All corner colors have the same number of components. -/
structure HasComponents (n : ℕ) : Prop where
  length00 : p.color00.length = n
  length01 : p.color01.length = n
  length11 : p.color11.length = n
  length10 : p.color10.length = n

theorem colors_ofSide (kind : PatchKind) (side : SharedSide ℚ C)
    (points : Vector (Point ℚ) kind.innerPoints) (colors : Vector (Color C) 2) :
    let q := ofSide kind side points colors
    q.color00 = side.startColor ∧ q.color01 = side.stopColor ∧ q.color11 = colors[0] ∧
      q.color10 = colors[1] := by
  let first : Vector (Color C) 2 := #v[side.startColor, side.stopColor]
  have hfirst (i : ℕ) (hi : i < 2) : (first ++ colors)[i] = first[i] :=
    Vector.getElem_append_left hi
  have hlast (i : ℕ) (hi : i < 2) : (first ++ colors)[2 + i] = colors[i] := by
    rw [Vector.getElem_append_right (by omega) (by omega)]
    simp only [Nat.add_sub_cancel_left]
  exact ⟨hfirst 0 (by decide), hfirst 1 (by decide), hlast 0 (by decide), hlast 1 (by decide)⟩

end Patch

namespace SharedSide

variable {C : Type} [Channel C ℚ]

/-- The colors along a side, which change evenly from its start to its end. -/
def colorAt (side : SharedSide ℚ C) (s : ℚ) : Color C :=
  (List.range side.startColor.length).map fun i =>
    let channel (color : Color C) : ℚ := (color[i]?.map Channel.widen).getD 0
    Channel.narrow ((1 - s) * channel side.startColor + s * channel side.stopColor)

end SharedSide

namespace Patch

variable {C : Type} [Channel C ℚ] {p : Patch ℚ C} {n : ℕ}

theorem colorAt_place (h : p.HasComponents n) (side : Side) (s : ℚ) :
    p.colorAt (side.place s).1 (side.place s).2 = (p.sideAt side).colorAt s := by
  obtain ⟨h00, h01, h11, h10⟩ := h
  cases side
  all_goals
    simp only [colorAt, SharedSide.colorAt, Side.place, sideAt, h00, h01, h11, h10]
    refine List.map_congr_left fun i _ => congrArg Channel.narrow ?_
    ring

theorem colorAt_zero (s : ℚ) :
    p.colorAt 0 s = (⟨p.grid.row0, p.color00, p.color01⟩ : SharedSide ℚ C).colorAt s := by
  simp only [colorAt, SharedSide.colorAt]
  refine List.map_congr_left fun i _ => congrArg Channel.narrow ?_
  ring

/-- The patch `q` begins where the patch `p` has a side: it has the same points and colors there. -/
def Meets (p q : Patch ℚ C) (side : Side) : Prop :=
  ∀ s, q.eval 0 s = p.eval (side.place s).1 (side.place s).2 ∧
    q.colorAt 0 s = p.colorAt (side.place s).1 (side.place s).2

theorem meets_ofSide (h : p.HasComponents n) (kind : PatchKind) (side : Side)
    (points : Vector (Point ℚ) kind.innerPoints) (colors : Vector (Color C) 2) :
    p.Meets (ofSide kind (p.sideAt side) points colors) side := by
  intro s
  obtain ⟨h00, h01, -, -⟩ := colors_ofSide kind (p.sideAt side) points colors
  refine ⟨?_, ?_⟩
  · rw [eval_ofSide, eval_place]
  · rw [colorAt_zero, colorAt_place h, h00, h01]
    rfl

end Patch

end SmoothShading
