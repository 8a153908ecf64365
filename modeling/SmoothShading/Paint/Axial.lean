import SmoothShading.Device
import SmoothShading.Shading

/-!
# Axial paint

The color of a pixel under an axial shading depends on its projection onto the axis alone. The
colors are found once for evenly spaced parameters, about one for each pixel that the axis is long,
and every pixel takes the color of the parameter nearest to its own.
-/

namespace SmoothShading

/-- An axial shading as it is queried. -/
structure AxialPaint (K : Type) where
  /-- The map from the device to the shading, which a map onto a line or a point lacks. -/
  preimage? : Option (Affine K)
  start : Point K
  axis : Point K
  extendStart : Bool
  extendEnd : Bool
  /-- How many steps of the table the axis takes. -/
  length : K
  table : Array Rgb8

namespace Axis

open Scalar

variable {K C : Type} [Scalar K] [Channel C K]

def startPoint (a : Axis C) : Point K := a.start.map Channel.widen

def stopPoint (a : Axis C) : Point K := a.stop.map Channel.widen

/-- The length of the axis on the device, cut where more colors would not be told apart. -/
def deviceLength (a : Axis C) (t : Affine K) : K :=
  minNum ((t.apply a.startPoint).dist (t.apply a.stopPoint)) 65536

/-- The parameter of the shading at a share `s` of the axis. -/
def parameterAt (a : Axis C) (s : K) : C :=
  let d0 : K := Channel.widen a.domainStart
  let d1 : K := Channel.widen a.domainEnd
  Channel.narrow (d0 + s * (d1 - d0))

/-- The share of the axis that an entry of the table stands for. An axis without a length has one
entry, for its start. -/
def shareOf (length : K) (entry : Nat) : K :=
  if 0 < length then minNum (ofNat entry / length) 1 else 0

/-- The colors of the table, from the start to the end of the axis. -/
def colors (a : Axis C) (length : K) (convert : Conversion C) : Reported (List Rgb8) :=
  Reported.collect ((List.range ((trunc (round length)).toNat + 1)).map fun entry =>
    convert.paint [a.parameterAt (shareOf length entry)])

/-- The paint with a table of about `length` entries. -/
def paint (a : Axis C) (t : Affine K) (length : K) (convert : Conversion C) :
    Reported (AxialPaint K) :=
  (a.colors length convert).map fun colors =>
    { preimage? := t.inverse?
      start := a.startPoint
      axis := a.stopPoint - a.startPoint
      extendStart := a.extendStart
      extendEnd := a.extendEnd
      length := length
      table := colors.toArray }

end Axis

namespace AxialPaint

open Scalar

variable {K : Type} [Scalar K]

/-- The projection of a pixel onto the axis, zero at its start and one at its end. An axis without
a length has no projection. -/
def projection? (a : AxialPaint K) (q : Pixel) : Option K :=
  match a.preimage? with
  | some preimage =>
    let lengthSq := a.axis.normSq
    if lengthSq == 0 then none
    else some ((preimage.apply q.sample - a.start).dot a.axis / lengthSq)
  | none => none

/-- Moves a projection beyond an end of the axis to that end, if the shading goes on there. -/
def extend? (a : AxialPaint K) (s : K) : Option K :=
  if s < 0 then (if a.extendStart then some 0 else none)
  else if 1 < s then (if a.extendEnd then some 1 else none)
  else some s

/-- The entry of the table for a share of the axis. -/
def entryOf (a : AxialPaint K) (s : K) : Nat :=
  min (trunc (round (s * a.length))).toNat (a.table.size - 1)

/-- The color of a pixel, if the shading paints it. -/
def colorAt (a : AxialPaint K) (q : Pixel) : Option Rgb8 :=
  ((a.projection? q).bind a.extend?).bind fun s => a.table[a.entryOf s]?

end AxialPaint

end SmoothShading
