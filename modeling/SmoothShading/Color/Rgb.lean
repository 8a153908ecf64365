import SmoothShading.Scalar

/-!
# Colors

A `Color` holds the components of one color of some color space, a `Rgb` the three channels every
color is painted in, and a `Rgba` one pixel of a finished raster.
-/

namespace SmoothShading

/-- The components of a color. How many there are is up to its color space. -/
abbrev Color (C : Type) : Type := List C

/-- The red, green and blue channels of a color. -/
structure Rgb (α : Type) where
  red : α
  green : α
  blue : α
deriving DecidableEq

/-- A color the device paints. -/
abbrev Rgb8 : Type := Rgb UInt8

namespace Rgb

def map {α β : Type} (f : α → β) (c : Rgb α) : Rgb β := ⟨f c.red, f c.green, f c.blue⟩

/-- What is painted where no color could be found. -/
def black : Rgb8 := ⟨0, 0, 0⟩

open Scalar in
/-- The byte for a channel between zero and one: outside values move to the nearest end, and the
fraction of a step is dropped. -/
def quantizeChannel {C : Type} [Scalar C] (v : C) : UInt8 :=
  UInt8.ofNat (trunc (clamp 0 1 v * 255)).toNat

/-- The painted color for channels between zero and one. -/
def quantize {C : Type} [Scalar C] (c : Rgb C) : Rgb8 := c.map quantizeChannel

end Rgb

/-- One pixel of a raster, with its opacity. -/
structure Rgba where
  red : UInt8
  green : UInt8
  blue : UInt8
  alpha : UInt8
deriving DecidableEq

namespace Rgba

/-- A pixel that nothing painted. -/
def transparent : Rgba := ⟨0, 0, 0, 0⟩

/-- A pixel is either fully covered by its color or not painted at all. -/
def ofPaint : Option Rgb8 → Rgba
  | some c => ⟨c.red, c.green, c.blue, 255⟩
  | none => transparent

def bytes (p : Rgba) : List UInt8 := [p.red, p.green, p.blue, p.alpha]

/-- Reads a pixel that `bytes` wrote. -/
def ofBytes? : List UInt8 → Option Rgba
  | [red, green, blue, alpha] => some ⟨red, green, blue, alpha⟩
  | _ => none

end Rgba

end SmoothShading
