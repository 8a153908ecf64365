import SmoothShading.Color.Rgb
import SmoothShading.Plane.Affine

/-!
# Vertices

The colored points that meshes are made of, and the blending of their colors.
-/

namespace SmoothShading

/-- A point with a stored color. -/
structure Vertex (K C : Type) where
  point : Point K
  color : Color C

namespace Vertex

/-- Moves the point and keeps the color. -/
def mapPoint {K L C : Type} (f : Point K → Point L) (v : Vertex K C) : Vertex L C :=
  ⟨f v.point, v.color⟩

end Vertex

namespace Color

variable {K C : Type} [Channel C K]

/-- Combines two colors component by component, as far as both have components. -/
def blend₂ (f : K → K → K) (c d : Color C) : Color C :=
  List.zipWith (fun x y => Channel.narrow (f (Channel.widen x) (Channel.widen y))) c d

/-- Combines three colors component by component, as far as all of them have components. -/
def blend₃ (f : K → K → K → K) (c d e : Color C) : Color C :=
  List.zipWith (fun (x, y) z =>
    Channel.narrow (f (Channel.widen x) (Channel.widen y) (Channel.widen z))) (c.zip d) e

end Color

end SmoothShading
