import SmoothShading.Color.Rgb

/-!
# Color spaces

A color space says how many components its colors have and which red, green and blue they stand
for. The three device spaces are defined here; any other pair of a number and a partial conversion
is a color space as well.
-/

namespace SmoothShading

/-- A number of components and the conversion of colors to channels between zero and one, which
may fail. -/
structure ColorSpace (C : Type) where
  components : Nat
  toRgb : Color C → Option (Rgb C)

namespace ColorSpace

open Scalar

variable {C : Type} [Scalar C]

/-- One component, the brightness of all three channels. -/
def gray : ColorSpace C where
  components := 1
  toRgb
    | g :: _ => some ⟨g, g, g⟩
    | [] => none

/-- The three channels themselves. -/
def rgb : ColorSpace C where
  components := 3
  toRgb
    | r :: g :: b :: _ => some ⟨r, g, b⟩
    | _ => none

/-- Cyan, magenta and yellow take light from one channel each, and black from all three. -/
def cmyk : ColorSpace C where
  components := 4
  toRgb
    | c :: m :: y :: k :: _ => some ((Rgb.mk c m y).map fun ink => 1 - minNum (ink + k) 1)
    | _ => none

end ColorSpace

end SmoothShading
