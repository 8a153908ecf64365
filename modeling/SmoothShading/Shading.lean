import SmoothShading.Color.Conversion
import SmoothShading.Mesh.Patch.Tessellation
import SmoothShading.Plane.Box
import SmoothShading.Stream.FreeForm
import SmoothShading.Stream.LatticeForm
import SmoothShading.Stream.PatchMesh

/-!
# Shadings

The description of a shading: how colors are spread over the plane (`Geometry`), the color space
and the function they are meant in, and the background and clip box around them. The stream of a
mesh is not part of it.
-/

namespace SmoothShading

/-- Colors that change along a segment and are constant across it. -/
structure Axis (C : Type) where
  start : Point C
  stop : Point C
  /-- The parameter at the start. -/
  domainStart : C
  /-- The parameter at the end. -/
  domainEnd : C
  /-- Whether the color of the start goes on before it. -/
  extendStart : Bool
  /-- Whether the color of the end goes on behind it. -/
  extendEnd : Bool

/-- Colors given at points by a stream. -/
inductive Mesh (C : Type) where
  /-- Triangles that may share edges. -/
  | freeForm (layout : StreamLayout C)
  /-- Triangles between the vertices of a lattice. -/
  | lattice (layout : StreamLayout C) (verticesPerRow : Nat)
  /-- Patches that may share sides. -/
  | patches (kind : PatchKind) (layout : StreamLayout C)

namespace Mesh

variable {K C : Type}

def layout : Mesh C → StreamLayout C
  | freeForm layout | lattice layout _ | patches _ layout => layout

variable [Scalar K] [Channel C K]

/-- The triangles of a mesh whose vertices have `n` components, in the order in which they are
painted. -/
def triangles (mesh : Mesh C) (n : Nat) (t : Affine K) (data : Array UInt8) :
    Except ShadingError (Reported (List (Triangle K C))) :=
  match mesh with
  | freeForm layout => do
    let format ← FlaggedFormat.ofLayout layout n
    return FreeForm.decode format t data
  | lattice layout verticesPerRow => do
    let format ← VertexFormat.ofLayout layout n
    return LatticeForm.decode format t verticesPerRow data
  | patches kind layout => do
    let format ← FlaggedFormat.ofLayout layout n
    return (PatchMesh.decode format t kind data).map (·.flatMap Patch.triangles)

end Mesh

/-- How the colors of a shading are spread. -/
inductive Geometry (C : Type) where
  | axial (axis : Axis C)
  | mesh (mesh : Mesh C)

/-- The description of a shading, in coordinates of its own. -/
structure Shading (K C : Type) where
  geometry : Geometry C
  space : ColorSpace C
  function : Option (ColorFunction C)
  /-- The color around the shading. -/
  background : Option (Color C)
  /-- The box outside of which nothing is painted, the background included. -/
  box : Option (Box K)

namespace Shading

variable {K C : Type}

/-- How the stored colors are painted. -/
def conversion [Scalar C] (s : Shading K C) : Conversion C := .of s.space s.function

/-- How the background is painted: it is a color of the color space itself, so no function comes
before it. -/
def backgroundConversion [Scalar C] (s : Shading K C) : Conversion C := .of s.space none

/-- The components stored for each vertex: a single parameter where a function finds the color. -/
def vertexComponents (s : Shading K C) : Nat :=
  if s.function.isSome then 1 else s.space.components

/-- Checks what can be checked before the layout of a stream: the background, then the function of
an axial shading, then the rows of a lattice. -/
def check (s : Shading K C) : Except ShadingError Unit :=
  if s.background.any (·.length != s.space.components) then .error .componentMismatch
  else
    match s.geometry with
    | .axial _ => if s.function.isNone then .error .missingFunction else .ok ()
    | .mesh (.lattice _ verticesPerRow) =>
      if verticesPerRow < 2 then .error (.invalidVerticesPerRow verticesPerRow) else .ok ()
    | .mesh _ => .ok ()

end Shading

end SmoothShading
