import SmoothShading.Plane.Point

/-!
# Pixels

The pixels of the device and the rectangles they are queried in. Device coordinates are 32-bit
integers, so the far side of a large rectangle stops at the last coordinate there is.
-/

namespace SmoothShading

/-- A pixel, named by its column and its row. -/
structure Pixel where
  x : Int
  y : Int
deriving DecidableEq, Hashable

/-- The point at which a pixel takes its color. -/
def Pixel.sample {K : Type} [Scalar K] (q : Pixel) : Point K :=
  ⟨Scalar.ofInt q.x, Scalar.ofInt q.y⟩

namespace Device

/-- The least coordinate of a pixel. -/
def minCoordinate : Int := -2147483648

/-- The greatest coordinate of a pixel. -/
def maxCoordinate : Int := 2147483647

/-- The coordinate nearest to an integer. -/
def saturate (n : Int) : Int := max minCoordinate (min n maxCoordinate)

end Device

/-- The pixel nearest to a point. -/
def Point.pixel {K : Type} [Scalar K] (p : Point K) : Pixel :=
  ⟨Device.saturate (Scalar.trunc (Scalar.round p.x)),
    Device.saturate (Scalar.trunc (Scalar.round p.y))⟩

/-- The integers from `lo` to `hi`, both included. -/
def span (lo hi : Int) : List Int :=
  (List.range (hi - lo + 1).toNat).map fun i : Nat => lo + i

/-- A rectangle of pixels: its top left pixel and its size. -/
structure PixelRect where
  x : Int32
  y : Int32
  width : UInt32
  height : UInt32

namespace PixelRect

/-- The last coordinate of a row of `size` pixels that starts at `start`. -/
def lastOf (start : Int32) (size : UInt32) : Int :=
  Device.saturate (Device.saturate (start.toInt + (size.toNat : Int)) - 1)

/-- The rightmost column. -/
def maxX (r : PixelRect) : Int := lastOf r.x r.width

/-- The bottommost row. -/
def maxY (r : PixelRect) : Int := lastOf r.y r.height

/-- Whether a pixel lies in the rectangle. -/
def contains (r : PixelRect) (q : Pixel) : Bool :=
  r.x.toInt ≤ q.x && q.x ≤ r.maxX && r.y.toInt ≤ q.y && q.y ≤ r.maxY

end PixelRect

end SmoothShading
