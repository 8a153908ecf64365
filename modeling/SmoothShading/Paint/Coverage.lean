import Std.Data.HashMap
import SmoothShading.Color.Conversion
import SmoothShading.Mesh.Triangle

/-!
# Coverage

The pixels that triangles paint within a rectangle. A triangle contributes a `Fragment` for every
pixel it contains (`Triangle.fragments`), and where triangles overlap the last one is seen
(`Coverage.ofFragments`).
-/

namespace SmoothShading

/-- A pixel and the stored color that a triangle has there. -/
structure Fragment (C : Type) where
  pixel : Pixel
  color : Color C

namespace Triangle

open Scalar

variable {K C : Type} [Scalar K]

/-- The pixels of a rectangle that lie in the box around a triangle, row by row. -/
def candidates (t : Triangle K C) (bounds : PixelRect) : List Pixel :=
  let box := t.box
  let pixelBelow (x : K) : Int := Device.saturate (trunc (floor x))
  let pixelAbove (x : K) : Int := Device.saturate (trunc (ceil x))
  let xs := span (max (pixelBelow box.x0) bounds.x.toInt) (min (pixelAbove box.x1) bounds.maxX)
  let ys := span (max (pixelBelow box.y0) bounds.y.toInt) (min (pixelAbove box.y1) bounds.maxY)
  ys.flatMap fun y => xs.map fun x => ⟨x, y⟩

/-- The pixels that a triangle paints within a rectangle: a line is walked, and anything else is
searched for in the box around it. -/
def fragments [Channel C K] (bounds : PixelRect) (t : Triangle K C) : List (Fragment C) :=
  let shape := t.shape
  match shape with
  | .line l => (l.pixels bounds).map fun q => ⟨q, l.colorAt q⟩
  | _ =>
    ((t.candidates bounds).filter fun q => t.containsAs shape q.sample).map fun q =>
      ⟨q, t.colorAs shape q.sample⟩

end Triangle

/-- The painted pixels of a mesh. -/
structure Coverage where
  colors : Std.HashMap Pixel Rgb8

namespace Coverage

/-- The color of a pixel, if it is painted. -/
def colorAt (c : Coverage) (q : Pixel) : Option Rgb8 := c.colors[q]?

/-- Paints pixels one after another, so that of several colors for one pixel the last stays. -/
def ofPixels (painted : List (Pixel × Rgb8)) : Coverage :=
  ⟨painted.foldl (fun colors p => colors.insert p.1 p.2) ∅⟩

/-- Paints fragments in order. Every fragment whose color cannot be converted is reported, also one
that is painted over later. -/
def ofFragments {C : Type} (convert : Conversion C) (fragments : List (Fragment C)) :
    Reported Coverage :=
  (Reported.collect (fragments.map fun f =>
    (convert.paint f.color).map fun c => (f.pixel, c))).map ofPixels

/-- Paints triangles in order within a rectangle. -/
def ofTriangles {K C : Type} [Scalar K] [Channel C K] (convert : Conversion C)
    (bounds : PixelRect) (triangles : List (Triangle K C)) : Reported Coverage :=
  ofFragments convert (triangles.flatMap (Triangle.fragments bounds))

end Coverage

end SmoothShading
