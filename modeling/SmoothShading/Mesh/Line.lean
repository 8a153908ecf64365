import SmoothShading.Device
import SmoothShading.Mesh.Vertex

/-!
# Lines

Lines of pixels between two pixels, with a color that changes evenly from one end to the other. A
line has one pixel for each step along the axis in which it has the greater extent; the other
coordinate is rounded to the nearest pixel.

`Line.pixels` walks the part of a line within a rectangle, `Line.contains` decides for single
points, and `Line.colorAt` colors them.
-/

namespace SmoothShading

/-- Two vertices with integer coordinates. -/
structure Line (K C : Type) where
  start : Vertex K C
  stop : Vertex K C

namespace Line

open Scalar

variable {K C : Type} [Scalar K]

/-- The line between the pixels nearest to two vertices. -/
def between (v w : Vertex K C) : Line K C := ⟨v.mapPoint Point.round, w.mapPoint Point.round⟩

def isFinite (l : Line K C) : Bool := l.start.point.isFinite && l.stop.point.isFinite

/-- The displacement from the start to the end. -/
def extent (l : Line K C) : Point K := l.stop.point - l.start.point

/-- Whether the line is walked along the y axis. -/
def isSteep (l : Line K C) : Bool := abs l.extent.x < abs l.extent.y

/-- The coordinate of a point along the axis of the walk. -/
def along (l : Line K C) (p : Point K) : K := if l.isSteep then p.y else p.x

/-- The other coordinate of a point. -/
def across (l : Line K C) (p : Point K) : K := if l.isSteep then p.x else p.y

/-- The least coordinate of the walk. -/
def first (l : Line K C) : K := minNum (l.along l.start.point) (l.along l.stop.point)

/-- The greatest coordinate of the walk. -/
def last (l : Line K C) : K := maxNum (l.along l.start.point) (l.along l.stop.point)

/-- The other coordinate of the pixel at the coordinate `m` of the walk. -/
def acrossAt (l : Line K C) (m : K) : K :=
  let a0 := l.along l.start.point
  let a1 := l.along l.stop.point
  let b0 := l.across l.start.point
  let b1 := l.across l.stop.point
  if a0 == a1 then b0 else round (b0 + (m - a0) * (b1 - b0) / (a1 - a0))

/-- The pixel at the coordinate `m` of the walk, if its other coordinate is a number. -/
def pixelAt? (l : Line K C) (m : Int) : Option Pixel :=
  let n := l.acrossAt (ofInt m)
  if isNumber n then some (if l.isSteep then ⟨trunc n, m⟩ else ⟨m, trunc n⟩) else none

/-- The pixels of the line in a rectangle, by increasing coordinate of the walk. No more steps are
made than the rectangle has columns or rows. -/
def pixels (l : Line K C) (bounds : PixelRect) : List Pixel :=
  let lo := maxNum l.first (ofInt (if l.isSteep then bounds.y.toInt else bounds.x.toInt))
  let hi := minNum l.last (ofInt (if l.isSteep then bounds.maxY else bounds.maxX))
  if l.isFinite && lo ≤ hi then
    ((span (trunc lo) (trunc hi)).filterMap l.pixelAt?).filter bounds.contains
  else []

/-- Whether the pixel nearest to a point belongs to the line. -/
def contains (l : Line K C) (p : Point K) : Bool :=
  let q := p.round
  let m := l.along q
  l.isFinite && l.first ≤ m && m ≤ l.last && l.acrossAt m == l.across q

/-- How far a pixel has come from the start to the end of a line of more than one pixel. -/
def progress (l : Line K C) (q : Pixel) : K :=
  let d := l.extent
  let p : Point K := q.sample
  clamp 0 1 (if l.isSteep then (p.y - l.start.point.y) / d.y else (p.x - l.start.point.x) / d.x)

/-- The color at a pixel. Pixels before the start have its color, and pixels behind the end have
the color of the end. -/
def colorAt [Channel C K] (l : Line K C) (q : Pixel) : Color C :=
  if l.extent.x == 0 && l.extent.y == 0 then l.start.color
  else
    let t := l.progress q
    Color.blend₂ (fun x y : K => x * (1 - t) + y * t) l.start.color l.stop.color

end Line

end SmoothShading
