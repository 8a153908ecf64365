import SmoothShading.Mesh.Vertex
import SmoothShading.Plane.Cubic

/-!
# Patches

Curved quadrilaterals with a color at each corner. A patch is the image of the unit square under a
surface of degree three in each of its parameters `u` and `v`, given by a grid of sixteen control
points. A Coons patch states only the twelve points of its boundary, a tensor-product patch all of
them.

Three of the four sides of a patch can be handed on to the next one (`Patch.sideAt`), which then
begins with the points and colors of that side.
-/

namespace SmoothShading

/-- How the surface of a patch is given. -/
inductive PatchKind where
  /-- By its four boundary curves. -/
  | coons
  /-- By sixteen control points. -/
  | tensor
deriving DecidableEq

namespace PatchKind

/-- The number of points that follow the four of the first side. -/
def innerPoints : PatchKind → Nat
  | coons => 8
  | tensor => 12

/-- The number of points that state a patch of its own. -/
def points (kind : PatchKind) : Nat := 4 + kind.innerPoints

end PatchKind

/-- Sixteen control points. Along a row the parameter `v` grows, and from row to row the parameter
`u`. -/
structure Grid (K : Type) where
  row0 : Cubic K
  row1 : Cubic K
  row2 : Cubic K
  row3 : Cubic K

namespace Grid

variable {K : Type} [Scalar K]

def column0 (g : Grid K) : Cubic K := ⟨g.row0.p0, g.row1.p0, g.row2.p0, g.row3.p0⟩

def column3 (g : Grid K) : Cubic K := ⟨g.row0.p3, g.row1.p3, g.row2.p3, g.row3.p3⟩

/-- The control points that are not on the boundary. -/
def inner (g : Grid K) : List (Point K) := [g.row1.p1, g.row1.p2, g.row2.p1, g.row2.p2]

/-- All control points, row by row. -/
def toList (g : Grid K) : List (Point K) :=
  [g.row0, g.row1, g.row2, g.row3].flatMap fun r => [r.p0, r.p1, r.p2, r.p3]

/-- Applies a map to every control point. -/
def map (f : Point K → Point K) (g : Grid K) : Grid K :=
  let onRow (r : Cubic K) : Cubic K := ⟨f r.p0, f r.p1, f r.p2, f r.p3⟩
  ⟨onRow g.row0, onRow g.row1, onRow g.row2, onRow g.row3⟩

/-- The inner control point of a Coons patch next to the corner `own`: it is pulled by the points
`near₁` and `near₂` beside that corner on the boundary, by the corners `side₁` and `side₂` next to
it, by the points `far₁` and `far₂` beside those, and by the opposite corner. -/
def coonsInner (own near₁ near₂ side₁ side₂ far₁ far₂ opposite : Point K) : Point K :=
  (own * (-4 : K) + (near₁ + near₂) * (6 : K) - (side₁ + side₂) * (2 : K) +
    (far₁ + far₂) * (3 : K) - opposite) * (1 / 9 : K)

/-- The grid with the given boundary whose tensor-product surface is the Coons surface of that
boundary. The points go round from the first corner, along the first row. -/
def ofBoundary (v : Vector (Point K) 12) : Grid K :=
  let p00 := v[0]
  let p01 := v[1]
  let p02 := v[2]
  let p03 := v[3]
  let p13 := v[4]
  let p23 := v[5]
  let p33 := v[6]
  let p32 := v[7]
  let p31 := v[8]
  let p30 := v[9]
  let p20 := v[10]
  let p10 := v[11]
  { row0 := ⟨p00, p01, p02, p03⟩
    row1 := ⟨p10, coonsInner p00 p01 p10 p03 p30 p31 p13 p33,
      coonsInner p03 p02 p13 p00 p33 p32 p10 p30, p13⟩
    row2 := ⟨p20, coonsInner p30 p31 p20 p33 p00 p01 p23 p03,
      coonsInner p33 p32 p23 p30 p03 p02 p20 p00, p23⟩
    row3 := ⟨p30, p31, p32, p33⟩ }

/-- The grid of sixteen points: first the boundary in the same order as for a Coons patch, then the
inner points, again going round from the first corner. -/
def ofSpiral (v : Vector (Point K) 16) : Grid K :=
  { row0 := ⟨v[0], v[1], v[2], v[3]⟩
    row1 := ⟨v[11], v[12], v[13], v[4]⟩
    row2 := ⟨v[10], v[15], v[14], v[5]⟩
    row3 := ⟨v[9], v[8], v[7], v[6]⟩ }

/-- The points of a grid in the order in which `ofSpiral` takes them. -/
def spiral (g : Grid K) : Vector (Point K) 16 :=
  #v[g.row0.p0, g.row0.p1, g.row0.p2, g.row0.p3, g.row1.p3, g.row2.p3, g.row3.p3, g.row3.p2,
    g.row3.p1, g.row3.p0, g.row2.p0, g.row1.p0, g.row1.p1, g.row1.p2, g.row2.p2, g.row2.p1]

/-- The surface as a blend of the boundary curves: the two blends across the patch, less the blend
of the corners, which both of them count. -/
def coonsEval (g : Grid K) (u v : K) : Point K :=
  let alongU := g.column0.eval u * (1 - v) + g.column3.eval u * v
  let alongV := g.row0.eval v * (1 - u) + g.row3.eval v * u
  let corners := g.row0.p0 * ((1 - u) * (1 - v)) + g.row0.p3 * ((1 - u) * v) +
    g.row3.p0 * (u * (1 - v)) + g.row3.p3 * (u * v)
  alongU + alongV - corners

/-- The surface as the sum of all control points, each with its weights in both directions. -/
def tensorEval (g : Grid K) (u v : K) : Point K :=
  let bu := bernstein u
  let bv := bernstein v
  let addRow (acc : Point K) (r : Cubic K) (b : K) : Point K :=
    acc + r.p0 * (b * bv.b0) + r.p1 * (b * bv.b1) + r.p2 * (b * bv.b2) + r.p3 * (b * bv.b3)
  addRow (addRow (addRow (addRow ⟨0, 0⟩ g.row0 bu.b0) g.row1 bu.b1) g.row2 bu.b2) g.row3 bu.b3

end Grid

/-- A side of a patch that the next patch may begin with. -/
inductive Side where
  /-- The side `v = 1`, by increasing `u`. -/
  | vOne
  /-- The side `u = 1`, by decreasing `v`. -/
  | uOne
  /-- The side `v = 0`, by decreasing `u`. -/
  | vZero
deriving DecidableEq

/-- The side that a flag of a patch stream names; zero and flags above three name none. -/
def Side.ofFlag? : Nat → Option Side
  | 1 => some vOne
  | 2 => some uOne
  | 3 => some vZero
  | _ => none

/-- A boundary curve and the colors at its two ends. -/
structure SharedSide (K C : Type) where
  curve : Cubic K
  startColor : Color C
  stopColor : Color C

/-- A surface over the unit square and the colors at the corners `(u, v)` of the square. -/
structure Patch (K C : Type) where
  kind : PatchKind
  grid : Grid K
  color00 : Color C
  color01 : Color C
  color11 : Color C
  color10 : Color C

namespace Patch

variable {K C : Type} [Scalar K]

/-- The grid of the points of a patch as its kind states them. -/
def gridOf : (kind : PatchKind) → Vector (Point K) kind.points → Grid K
  | .coons, points => Grid.ofBoundary points
  | .tensor, points => Grid.ofSpiral points

/-- The patch with the given points, and with the given colors at the corners of the boundary in
the order of the points. -/
def ofPoints (kind : PatchKind) (points : Vector (Point K) kind.points)
    (colors : Vector (Color C) 4) : Patch K C :=
  ⟨kind, gridOf kind points, colors[0], colors[1], colors[2], colors[3]⟩

/-- The side of a patch in the direction in which the next patch begins with it. -/
def sideAt (p : Patch K C) : Side → SharedSide K C
  | .vOne => ⟨p.grid.column3, p.color01, p.color11⟩
  | .uOne => ⟨p.grid.row3.reverse, p.color11, p.color10⟩
  | .vZero => ⟨p.grid.column0.reverse, p.color10, p.color00⟩

/-- The patch that begins with a side of another one and goes on with points and colors of its
own. -/
def ofSide (kind : PatchKind) (side : SharedSide K C)
    (points : Vector (Point K) kind.innerPoints) (colors : Vector (Color C) 2) : Patch K C :=
  let c := side.curve
  ofPoints kind (#v[c.p0, c.p1, c.p2, c.p3] ++ points)
    (#v[side.startColor, side.stopColor] ++ colors)

/-- The point of the surface at the parameters `u` and `v`. -/
def eval (p : Patch K C) (u v : K) : Point K :=
  match p.kind with
  | .coons => p.grid.coonsEval u v
  | .tensor => p.grid.tensorEval u v

/-- The color at the parameters `u` and `v`, which changes evenly along every line on which one of
them is fixed. It has the components of the color at the origin; one that another corner lacks is
zero there. -/
def colorAt [Channel C K] (p : Patch K C) (u v : K) : Color C :=
  (List.range p.color00.length).map fun i =>
    let channel (color : Color C) : K := (color[i]?.map Channel.widen).getD 0
    Channel.narrow ((1 - v) * ((1 - u) * channel p.color00 + u * channel p.color10) +
      v * ((1 - u) * channel p.color01 + u * channel p.color11))

/-- The surface as the parameters see it: a point and its color. -/
def vertexAt [Channel C K] (p : Patch K C) (u v : K) : Vertex K C :=
  ⟨p.eval u v, p.colorAt u v⟩

end Patch

end SmoothShading
