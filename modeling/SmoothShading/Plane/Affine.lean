import SmoothShading.Plane.Point

/-!
# Affine maps

The maps that take the coordinates of a shading to those of the device.
-/

namespace SmoothShading

/-- The map that sends `(x, y)` to `(a x + c y + e, b x + d y + f)`. -/
structure Affine (K : Type) where
  a : K
  b : K
  c : K
  d : K
  e : K
  f : K

namespace Affine

variable {K : Type} [Scalar K]

/-- The map that moves nothing. -/
def identity : Affine K := ⟨1, 0, 0, 1, 0, 0⟩

def apply (t : Affine K) (p : Point K) : Point K :=
  ⟨t.a * p.x + t.c * p.y + t.e, t.b * p.x + t.d * p.y + t.f⟩

/-- The factor by which areas grow, negative for a reflection. -/
def determinant (t : Affine K) : K := t.a * t.d - t.b * t.c

/-- The map that undoes `t`, where the determinant is not zero. -/
def inverse (t : Affine K) : Affine K :=
  let i := 1 / t.determinant
  ⟨i * t.d, -i * t.b, -i * t.c, i * t.a,
    i * (t.c * t.f - t.d * t.e), i * (t.b * t.e - t.a * t.f)⟩

/-- The inverse of a map that has one: a map onto a line or a point has none. -/
def inverse? (t : Affine K) : Option (Affine K) :=
  if t.determinant == 0 then none else some t.inverse

end Affine

end SmoothShading
