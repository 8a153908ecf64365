import SmoothShading.Mesh.Lattice
import SmoothShading.Mesh.Triangle
import SmoothShading.Report
import SmoothShading.Stream.Layout
import SmoothShading.Stream.Records

/-!
# Lattice-form triangle meshes

Every record is a vertex, and the vertices fill the rows of a lattice one after another. Each cell
of the lattice is two triangles.
-/

namespace SmoothShading

namespace LatticeForm

variable {K C : Type}

/-- Both triangles of a cell, divided by the diagonal from its top right to its bottom left. -/
def cellTriangles (q : Cell (Vertex K C)) : List (Triangle K C) :=
  [⟨q.topLeft, q.topRight, q.bottomLeft⟩, ⟨q.topRight, q.bottomLeft, q.bottomRight⟩]

/-- The triangles between the complete rows of vertices. Rows of a single vertex have none. -/
def triangles (verticesPerRow : Nat) (vertices : List (Vertex K C)) : List (Triangle K C) :=
  if verticesPerRow < 2 then []
  else (Lattice.cells (Lattice.completeRows verticesPerRow vertices)).flatMap cellTriangles

variable [Scalar K] [Channel C K]

/-- The vertices of a stream; a record is all body. -/
def records (f : VertexFormat K) (t : Affine K) (data : Array UInt8) :
    Records Unit (Vertex K C) :=
  Records.read (return ()) (fun _ => f.vertex t) (Bits.Reader.ofBytes data)

/-- The triangles of a stream, mapped to the device. -/
def decode (f : VertexFormat K) (t : Affine K) (verticesPerRow : Nat) (data : Array UInt8) :
    Reported (List (Triangle K C)) :=
  let rs := records f t data
  ⟨triangles verticesPerRow rs.complete, if rs.tail.isCut then [.truncatedStream] else []⟩

end LatticeForm

end SmoothShading
