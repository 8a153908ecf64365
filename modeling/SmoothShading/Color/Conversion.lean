import SmoothShading.Color.Function
import SmoothShading.Color.Space
import SmoothShading.Report

/-!
# From stored to painted colors

A `Conversion` carries the stored colors of a shading to the device. It goes through the function,
if there is one, then through the color space, then to bytes (`Conversion.of`), and each of the
first two steps may fail. A color that cannot be converted is painted black (`Conversion.paint`).
-/

namespace SmoothShading

/-- A partial map from stored to painted colors. -/
abbrev Conversion (C : Type) : Type := Color C → Except ConversionError Rgb8

namespace Conversion

variable {C : Type}

/-- The conversion of colors of a color space, or of the parameters of a function into it. -/
def of [Scalar C] (space : ColorSpace C) (function? : Option (ColorFunction C)) : Conversion C :=
  fun stored => do
    let components ← match function? with
      | some f => f stored
      | none => .ok stored
    match space.toRgb components with
    | some c => .ok c.quantize
    | none => .error .outsideSpace

/-- The color to paint for a stored one; a failure is reported. -/
def paint (convert : Conversion C) (stored : Color C) : Reported Rgb8 :=
  match convert stored with
  | .ok c => .pure c
  | .error cause => ⟨.black, [.colorConversion cause]⟩

end Conversion

end SmoothShading
