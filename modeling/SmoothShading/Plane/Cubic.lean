import SmoothShading.Plane.Orientation

/-!
# Cubic curves

Bézier curves of degree three, given by two end points and two inner control points.
-/

namespace SmoothShading

/-- The control points of a cubic curve from `p0` to `p3`. -/
structure Cubic (K : Type) where
  p0 : Point K
  p1 : Point K
  p2 : Point K
  p3 : Point K

namespace Cubic

open Scalar

variable {K : Type} [Scalar K]

/-- The point of the curve at the parameter `t`. -/
def eval (c : Cubic K) (t : K) : Point K :=
  let s := 1 - t
  c.p0 * (s * s * s) + (c.p1 * (s * s * (3 : K)) + (c.p2 * (s * (3 : K)) + c.p3 * t) * t) * t

/-- The same curve from its end to its start. -/
def reverse (c : Cubic K) : Cubic K := ⟨c.p3, c.p2, c.p1, c.p0⟩

/-- The squared distance of the end points. -/
def chordSq (c : Cubic K) : K := c.p0.distSq c.p3

/-- Whether the curve may be drawn as its chord: the areas that both inner control points span
with the chord are bounded by its horizontal extent, or both by its vertical extent. -/
def isStraight (c : Cubic K) : Bool :=
  let d1 := abs (sideOf c.p1 c.p0 c.p3)
  let d2 := abs (sideOf c.p2 c.p0 c.p3)
  let x := abs (c.p0.x - c.p3.x)
  let y := abs (c.p0.y - c.p3.y)
  (d1 ≤ x && d2 ≤ x) || (d1 ≤ y && d2 ≤ y)

end Cubic

/-- The four cubic basis polynomials at one parameter. -/
structure Bernstein (K : Type) where
  b0 : K
  b1 : K
  b2 : K
  b3 : K

/-- The weights of the four control points at the parameter `t`; they add up to one. -/
def bernstein {K : Type} [Scalar K] (t : K) : Bernstein K :=
  let s := 1 - t
  ⟨s * s * s, 3 * t * s * s, 3 * t * t * s, t * t * t⟩

end SmoothShading
