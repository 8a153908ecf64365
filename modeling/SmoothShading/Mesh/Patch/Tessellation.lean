import SmoothShading.Mesh.Lattice
import SmoothShading.Mesh.Patch
import SmoothShading.Mesh.Triangle

/-!
# Tessellation

A patch is painted as triangles between sample points of its surface. Along each parameter the unit
interval is halved a number of times, its level: four times where the boundary is curved, and fewer
times the shorter a straight boundary is (`Patch.levelU`, `Patch.levelV`). Each cell of the lattice
of samples gives one or two triangles (`Cell.triangles`).
-/

namespace SmoothShading

namespace Patch

open Scalar

variable {K C : Type} [Scalar K]

/-- The level of greatest detail. -/
def finestLevel : Nat := 4

/-- The level for straight boundary curves, given the greatest squared length of their chords:
chords of more than 800, 400 and 200 pixels take the levels four, three and two. -/
def levelOfChordSq (s : K) : Nat :=
  if 640000 < s then finestLevel
  else if 160000 < s then 3
  else if 40000 < s then 2
  else 1

/-- The level along two opposite boundary curves. Detail may be saved only if both are straight and
no inner control point lies outside of the strip between them. -/
def levelBetween (inner : List (Point K)) (c d : Cubic K) : Nat :=
  let outside := inner.any fun p => sameSide p c.p0 c.p3 d.p0 d.p3
  if c.isStraight && d.isStraight && !outside then levelOfChordSq (maxNum c.chordSq d.chordSq)
  else finestLevel

/-- How many times the interval of `u` is halved. -/
def levelU (p : Patch K C) : Nat := levelBetween p.grid.inner p.grid.column0 p.grid.column3

/-- How many times the interval of `v` is halved. -/
def levelV (p : Patch K C) : Nat := levelBetween p.grid.inner p.grid.row0 p.grid.row3

/-- The number of parts of an interval that was halved that many times. -/
def parts (level : Nat) : Nat := 1 <<< level

/-- The ends of the equal parts of the unit interval. -/
def parameters (level : Nat) : List K :=
  (List.range (parts level + 1)).map fun i => ofNat i / ofNat (parts level)

variable [Channel C K]

/-- The sample points of the surface, a row for each value of `v`. -/
def samples (p : Patch K C) : List (List (Vertex K C)) :=
  let us : List K := parameters p.levelU
  (parameters p.levelV).map fun v => us.map fun u => p.vertexAt u v

end Patch

/-- The triangles that cover a cell of samples. The upper left one is left out if two of its
corners beside the diagonal coincide, and the lower right one likewise; but never both of them,
since a cell without triangles would be a hole. -/
def Cell.triangles {K C : Type} [Scalar K] (q : Cell (Vertex K C)) : List (Triangle K C) :=
  let upper := !coincide q.topLeft.point q.topRight.point &&
    !coincide q.topLeft.point q.bottomLeft.point
  let lower := !coincide q.bottomRight.point q.topRight.point &&
    !coincide q.bottomRight.point q.bottomLeft.point
  (if upper then [⟨q.topLeft, q.topRight, q.bottomLeft⟩] else []) ++
    (if !upper || lower then [⟨q.bottomLeft, q.topRight, q.bottomRight⟩] else [])

/-- The triangles a patch is painted as, cell by cell. -/
def Patch.triangles {K C : Type} [Scalar K] [Channel C K] (p : Patch K C) :
    List (Triangle K C) :=
  (Lattice.cells p.samples).flatMap Cell.triangles

end SmoothShading
