import SmoothShading.Plane.Point

/-!
# Orientation

Which side of a line a point lies on, and what follows from it: the signed area of a triangle and
the rule by which a point on an edge belongs to one of the two triangles that share it
(`insideEdge`). `coincide` says when two points count as one.
-/

namespace SmoothShading

open Scalar

variable {K : Type} [Scalar K]

/-- Points of the device that differ by less than this in both coordinates count as one. -/
def tolerance : K := 1 / 1000

/-- Whether two points differ by less than the tolerance in both coordinates. -/
def coincide (p q : Point K) : Bool := abs (p.x - q.x) < tolerance && abs (p.y - q.y) < tolerance

/-- The sign says on which side of the line from `a` to `b` the point `p` lies; the magnitude is
twice the area of the triangle of the three. -/
def sideOf (p a b : Point K) : K := (b.y - a.y) * (p.x - a.x) - (b.x - a.x) * (p.y - a.y)

/-- Whether `p` lies on the inner side of the edge from `a` to `b` of a triangle with a positive
signed area. A point of the edge itself counts if the edge points upwards, or along the x axis: the
two triangles at an edge pass it in opposite directions, so exactly one of them takes its points. -/
def insideEdge (p a b : Point K) : Bool :=
  let w := -sideOf p a b
  if w == 0 then
    let d := b - a
    d.y < 0 || (d.y == 0 && 0 < d.x)
  else 0 < w

/-- The area of a triangle, negative if its corners go round the other way. -/
def signedArea (a b c : Point K) : K :=
  ((b.x - a.x) * (c.y - a.y) - (c.x - a.x) * (b.y - a.y)) / 2

/-- Whether `p` lies on the same side of the lines from `a` to `b` and from `c` to `d`, and on
neither of them. -/
def sameSide (p a b c d : Point K) : Bool := 0 < sideOf p a b * sideOf p c d

end SmoothShading
