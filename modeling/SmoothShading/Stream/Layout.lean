import SmoothShading.Bits.Reader
import SmoothShading.Error
import SmoothShading.Mesh.Vertex
import SmoothShading.Stream.DecodeRange

/-!
# Layouts of streams

A `StreamLayout` is what a shading states about its stream: the widths of its samples and the
numbers they stand for. `VertexFormat.ofLayout` and `FlaggedFormat.ofLayout` check it and give the
formats that points and colors are read by.
-/

namespace SmoothShading

/-- The stated widths of samples, and the ends of the decode ranges: those of x, then of y, then of
the components. -/
structure StreamLayout (C : Type) where
  coordinateBits : Nat
  componentBits : Nat
  /-- Lattices have no flags and disregard this width. -/
  flagBits : Nat
  decode : List C

/-- How the point and the color of a vertex are stored. -/
structure VertexFormat (K : Type) where
  coordinate : Bits.Width
  component : Bits.Width
  xRange : DecodeRange K
  yRange : DecodeRange K
  colorRanges : List (DecodeRange K)

/-- How records are stored that begin with a flag. -/
structure FlaggedFormat (K : Type) extends VertexFormat K where
  flag : Bits.Width

/-- The width of that many bits, if samples may have it. -/
def StreamLayout.width (bits : Nat) : Except ShadingError Bits.Width :=
  match Bits.Width.ofNat? bits with
  | some w => .ok w
  | none => .error (.invalidBitSize bits)

/-- The ranges of both coordinates and of `n` components, of which there is at least one. -/
def StreamLayout.ranges {K C : Type} [Channel C K] (layout : StreamLayout C) (n : Nat) :
    Except ShadingError (DecodeRange K × DecodeRange K × List (DecodeRange K)) :=
  match layout.decode.map Channel.widen with
  | x0 :: x1 :: y0 :: y1 :: rest =>
    if n = 0 ∨ rest.length < 2 * n then .error .invalidDecodeArray
    else .ok (⟨x0, x1⟩, ⟨y0, y1⟩, (DecodeRange.pairs rest).take n)
  | _ => .error .invalidDecodeArray

/-- The format of vertices with `n` components. Of several faults in a layout, a width is reported
before the decode array. -/
def VertexFormat.ofLayout {K C : Type} [Channel C K] (layout : StreamLayout C) (n : Nat) :
    Except ShadingError (VertexFormat K) := do
  let coordinate ← StreamLayout.width layout.coordinateBits
  let component ← StreamLayout.width layout.componentBits
  let (x, y, colors) ← layout.ranges n
  .ok ⟨coordinate, component, x, y, colors⟩

/-- The format of records with flags and colors of `n` components. Of several faults in a layout, a
width is reported before the decode array. -/
def FlaggedFormat.ofLayout {K C : Type} [Channel C K] (layout : StreamLayout C) (n : Nat) :
    Except ShadingError (FlaggedFormat K) := do
  let coordinate ← StreamLayout.width layout.coordinateBits
  let component ← StreamLayout.width layout.componentBits
  let flag ← StreamLayout.width layout.flagBits
  let (x, y, colors) ← layout.ranges n
  .ok ⟨⟨coordinate, component, x, y, colors⟩, flag⟩

namespace VertexFormat

open Bits

variable {K C : Type} [Scalar K]

/-- Reads one sample and decodes it. -/
def number (w : Width) (range : DecodeRange K) : BitParser K := do
  let sample ← Reader.read w
  return range.decode sample w.maxSample

/-- Reads a point and maps it to the device. -/
def point (f : VertexFormat K) (t : Affine K) : BitParser (Point K) := do
  let x ← number f.coordinate f.xRange
  let y ← number f.coordinate f.yRange
  return t.apply ⟨x, y⟩

/-- Reads a color, each component by its own range. -/
def color [Channel C K] (f : VertexFormat K) : BitParser (Color C) :=
  f.colorRanges.mapM fun range => do
    let x ← number f.component range
    return Channel.narrow x

/-- Reads a vertex and skips to the next byte, where the next one begins. -/
def vertex [Channel C K] (f : VertexFormat K) (t : Affine K) : BitParser (Vertex K C) := do
  let point ← f.point t
  let color ← f.color
  Reader.align
  return ⟨point, color⟩

end VertexFormat

/-- Reads a flag. Only its two lowest bits count. -/
def FlaggedFormat.edgeFlag {K : Type} (f : FlaggedFormat K) : Bits.BitParser Nat := do
  let sample ← Bits.Reader.read f.flag
  return sample % 4

end SmoothShading
