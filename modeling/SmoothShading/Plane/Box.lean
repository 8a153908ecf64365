import SmoothShading.Plane.Affine

/-!
# Boxes

Rectangles with sides along the axes: the bounding boxes of triangles and the clip box of a
shading.
-/

namespace SmoothShading

/-- The points between `x0` and `x1` in one direction and between `y0` and `y1` in the other. -/
structure Box (K : Type) where
  x0 : K
  y0 : K
  x1 : K
  y1 : K

namespace Box

open Scalar

variable {K : Type} [Scalar K]

/-- The same rectangle with its lesser corner first. -/
def ordered (b : Box K) : Box K :=
  ⟨minNum b.x0 b.x1, minNum b.y0 b.y1, maxNum b.x0 b.x1, maxNum b.y0 b.y1⟩

/-- The smallest box with two points in it. -/
def ofPoints (p q : Point K) : Box K := ordered ⟨p.x, p.y, q.x, q.y⟩

/-- The smallest box around two boxes. -/
def union (b c : Box K) : Box K :=
  ⟨minNum b.x0 c.x0, minNum b.y0 c.y0, maxNum b.x1 c.x1, maxNum b.y1 c.y1⟩

/-- The smallest box around a box and a point. -/
def insert (b : Box K) (p : Point K) : Box K :=
  ⟨minNum b.x0 p.x, minNum b.y0 p.y, maxNum b.x1 p.x, maxNum b.y1 p.y⟩

def width (b : Box K) : K := b.x1 - b.x0

def height (b : Box K) : K := b.y1 - b.y0

/-- The smallest box around the four images of the corners. -/
def image (t : Affine K) (b : Box K) : Box K :=
  (ofPoints (t.apply ⟨b.x0, b.y0⟩) (t.apply ⟨b.x0, b.y1⟩)).union
    (ofPoints (t.apply ⟨b.x1, b.y0⟩) (t.apply ⟨b.x1, b.y1⟩))

/-- Whether a point lies beyond a side; the sides themselves belong to the box. -/
def excludes (b : Box K) (p : Point K) : Bool :=
  p.x < b.x0 || b.x1 < p.x || p.y < b.y0 || b.y1 < p.y

end Box

end SmoothShading
