import SmoothShading.Paint.Axial
import SmoothShading.Paint.Coverage

/-!
# Rasterizers

A `Rasterizer` is a shading made ready for queries: its stream is decoded, its colors are converted
and its box is mapped to the device. `Rasterizer.ofShading` fails on an unusable shading, and
`Rasterizer.ofShadingOrBackground` paints the background of one. `Rasterizer.colorAt` answers for
single pixels.

Both are built with the conversions that a shading stands for, by functions that take any
conversions in their place (`Rasterizer.build`, `Rasterizer.around`).
-/

namespace SmoothShading

/-- Where the colors of a rasterizer come from. -/
inductive Paint (K : Type) where
  | axial (paint : AxialPaint K)
  | mesh (coverage : Coverage)
  /-- An unusable shading has no colors. -/
  | nothing

/-- The color of a pixel, if it is painted. -/
def Paint.colorAt {K : Type} [Scalar K] (p : Paint K) (q : Pixel) : Option Rgb8 :=
  match p with
  | axial paint => paint.colorAt q
  | mesh coverage => coverage.colorAt q
  | nothing => none

namespace Shading

variable {K C : Type} [Scalar K]

/-- The painted background. One that does not fit the color space is left out. -/
def paintBackground (s : Shading K C) (convert : Conversion C) : Reported (Option Rgb8) :=
  match s.background with
  | some c =>
    if c.length = s.space.components then (convert.paint c).map some else .pure none
  | none => .pure none

/-- The box that clips on the device: the one around the image of the box of the shading. One
without an area clips nothing. -/
def clip (s : Shading K C) (t : Affine K) : Option (Box K) :=
  match s.box with
  | some box =>
    let image := box.ordered.image t
    if 0 < image.width && 0 < image.height then some image else none
  | none => none

/-- The colors of a shading, within `bounds` if they are those of a mesh. -/
def paint [Channel C K] (s : Shading K C) (convert : Conversion C) (t : Affine K)
    (data : Array UInt8) (bounds : PixelRect) : Except ShadingError (Reported (Paint K)) :=
  match s.geometry with
  | .axial axis => .ok ((axis.paint t (axis.deviceLength t) convert).map .axial)
  | .mesh mesh => do
    let triangles ← mesh.triangles s.vertexComponents t data
    return (triangles.bind (Coverage.ofTriangles convert bounds)).map .mesh

end Shading

/-- A shading that can be queried. -/
structure Rasterizer (K : Type) where
  paint : Paint K
  background : Option Rgb8
  clip : Option (Box K)

namespace Rasterizer

variable {K C : Type} [Scalar K]

/-- Surrounds a paint with the background and the clip box of a shading. -/
def around (s : Shading K C) (convert : Conversion C) (t : Affine K) (paint : Paint K) :
    Reported (Rasterizer K) :=
  (s.paintBackground convert).map fun background => ⟨paint, background, s.clip t⟩

/-- The rasterizer of a shading whose stored colors and whose background are converted as given. -/
def build [Channel C K] (s : Shading K C) (convert convertBackground : Conversion C) (t : Affine K)
    (data : Array UInt8) (bounds : PixelRect) :
    Except ShadingError (Reported (Rasterizer K)) := do
  s.check
  let paint ← s.paint convert t data bounds
  return paint.bind (around s convertBackground t)

variable [Scalar C] [Channel C K]

/-- The rasterizer of a shading. The map `t` leads from the shading to the device, `data` is the
stream of a mesh, and a mesh is painted within `bounds` alone. -/
def ofShading (s : Shading K C) (t : Affine K) (data : Array UInt8) (bounds : PixelRect) :
    Except ShadingError (Reported (Rasterizer K)) :=
  build s s.conversion s.backgroundConversion t data bounds

/-- The rasterizer of a shading, or that of its background if it is unusable. -/
def ofShadingOrBackground (s : Shading K C) (t : Affine K) (data : Array UInt8)
    (bounds : PixelRect) : Reported (Rasterizer K) :=
  match ofShading s t data bounds with
  | .ok r => r
  | .error _ => (around s s.backgroundConversion t .nothing).after [.constructionFailure]

/-- The color of a pixel, if it is painted. Outside of the clip box not even the background is. -/
def colorAt (r : Rasterizer K) (q : Pixel) : Option Rgb8 :=
  if r.clip.any (·.excludes q.sample) then none
  else (r.paint.colorAt q).or r.background

end Rasterizer

end SmoothShading
