import SmoothShading.Rasterizer

/-!
# Rasters

A `Raster` is a rectangle of finished pixels, held as bytes. `Rasterizer.raster` paints one row
after another, and `Raster.pixel` reads a pixel back by its device coordinates.
-/

namespace SmoothShading

/-- A rectangle of finished pixels. -/
structure Raster where
  x : Int32
  y : Int32
  width : UInt32
  height : UInt32
  /-- The pixels row by row, four bytes for each. -/
  data : Array UInt8

namespace Raster

/-- The pixel at device coordinates; outside of the raster nothing is painted. -/
def pixel (r : Raster) (q : Pixel) : Rgba :=
  let column := q.x - r.x.toInt
  let row := q.y - r.y.toInt
  if column < 0 ∨ row < 0 ∨ (r.width.toNat : Int) ≤ column ∨ (r.height.toNat : Int) ≤ row then
    .transparent
  else
    let start := ((row * (r.width.toNat : Int) + column) * 4).toNat
    (Rgba.ofBytes? (r.data.extract start (start + 4)).toList).getD .transparent

def bytes (r : Raster) : List UInt8 := r.data.toList

end Raster

/-- The coordinate that lies `offset` behind another one. An offset is a 32-bit integer as a
coordinate is, and none passes the last coordinate there is. -/
def Device.behind (start : Int32) (offset : Nat) : Int :=
  saturate (start.toInt + (Int32.ofNat offset).toInt)

namespace Rasterizer

variable {K : Type} [Scalar K]

/-- The bytes of one row of a rectangle, counted from its topmost one. -/
def line (r : Rasterizer K) (x y : Int32) (width : UInt32) (row : Nat) : List UInt8 :=
  (List.range width.toNat).flatMap fun column =>
    (Rgba.ofPaint (r.colorAt ⟨Device.behind x column, Device.behind y row⟩)).bytes

/-- The pixels of a rectangle. -/
def raster (r : Rasterizer K) (x y : Int32) (width height : UInt32) : Raster where
  x := x
  y := y
  width := width
  height := height
  data := ((List.range height.toNat).flatMap (r.line x y width)).toArray

end Rasterizer

end SmoothShading
