import SmoothShading.Mesh.Line
import SmoothShading.Plane.Box
import SmoothShading.Plane.Orientation

/-!
# Triangles

Triangles with a color at each corner. Corners that coincide, or lie on one line, leave no area to
paint: such a triangle is painted as a line or as a single point (`Triangle.shape`).
-/

namespace SmoothShading

/-- Three colored corners, in either orientation. -/
structure Triangle (K C : Type) where
  a : Vertex K C
  b : Vertex K C
  c : Vertex K C

/-- What is left of a triangle when the corners that coincide are taken as one. -/
inductive Shape (K C : Type) where
  /-- All corners coincide. -/
  | point
  /-- The corners lie on one line, with these ends. -/
  | line (l : Line K C)
  /-- The triangle has an area. -/
  | proper

namespace Triangle

open Scalar

variable {K C : Type} [Scalar K]

def mapPoints {L : Type} (f : Point L → Point K) (t : Triangle L C) : Triangle K C :=
  ⟨t.a.mapPoint f, t.b.mapPoint f, t.c.mapPoint f⟩

/-- The area of the triangle, negative if its corners go round the other way. -/
def area (t : Triangle K C) : K := signedArea t.a.point t.b.point t.c.point

/-- How many of the three pairs of corners coincide. -/
def coincidences (t : Triangle K C) : Nat :=
  (coincide t.a.point t.b.point).toNat + (coincide t.a.point t.c.point).toNat +
    (coincide t.b.point t.c.point).toNat

/-- Whether `x` is the greater of two distances. One that is not a number exceeds all others. -/
def exceeds (x y : K) : Bool := y < x || (!isNumber x && isNumber y)

/-- The two corners that are farthest apart, and of equally distant pairs the later one. This picks
the two distinct corners if two of them coincide, and the ends of the segment if all three lie on
one line. -/
def ends (t : Triangle K C) : Vertex K C × Vertex K C :=
  let farther (p q : Vertex K C × Vertex K C) : Vertex K C × Vertex K C :=
    if exceeds (p.1.point.distSq p.2.point) (q.1.point.distSq q.2.point) then p else q
  farther (farther (t.a, t.b) (t.a, t.c)) (t.b, t.c)

def shape (t : Triangle K C) : Shape K C :=
  if 2 ≤ t.coincidences then .point
  else if t.coincidences = 0 ∧ tolerance ≤ abs t.area then .proper
  else .line (Line.between t.ends.1 t.ends.2)

/-- The smallest box around the corners. -/
def box (t : Triangle K C) : Box K := (Box.ofPoints t.a.point t.b.point).insert t.c.point

/-- Whether a point lies in a triangle with an area, whose edges are passed in the direction in
which the signed area is positive. -/
def properContains (t : Triangle K C) (p : Point K) : Bool :=
  let a := t.a.point
  let b := t.b.point
  let c := t.c.point
  if 0 < t.area then insideEdge p a b && insideEdge p b c && insideEdge p c a
  else insideEdge p a c && insideEdge p c b && insideEdge p b a

/-- Whether a triangle of the given shape contains a point. -/
def containsAs (t : Triangle K C) (s : Shape K C) (p : Point K) : Bool :=
  match s with
  | .point => coincide t.a.point p
  | .line l => l.contains p
  | .proper => t.properContains p

/-- Whether a point lies in the triangle. Of the points on its edges it contains those of its top
and left edges, so that neighbouring triangles never both contain a point. -/
def contains (t : Triangle K C) (p : Point K) : Bool := t.containsAs t.shape p

variable [Channel C K]

/-- The mean of the three corner colors. -/
def meanColor (t : Triangle K C) : Color C :=
  Color.blend₃ (fun x y z : K => (x + y + z) / 3) t.a.color t.b.color t.c.color

/-- The color at a point of a triangle with an area: each corner counts with the share of the area
that the point spans with the other two. -/
def properColor (t : Triangle K C) (p : Point K) : Color C :=
  let a := t.a.point
  let b := t.b.point
  let c := t.c.point
  let area := t.area
  let wa := signedArea p b c / area
  let wb := signedArea a p c / area
  let wc := signedArea a b p / area
  Color.blend₃ (fun x y z : K => x * wa + y * wb + z * wc) t.a.color t.b.color t.c.color

/-- The color at a point of a triangle of the given shape. -/
def colorAs (t : Triangle K C) (s : Shape K C) (p : Point K) : Color C :=
  match s with
  | .point => t.meanColor
  | .line l => l.colorAt p.pixel
  | .proper => t.properColor p

/-- The color at a point, which need not lie in the triangle. -/
def colorAt (t : Triangle K C) (p : Point K) : Color C := t.colorAs t.shape p

end Triangle

end SmoothShading
