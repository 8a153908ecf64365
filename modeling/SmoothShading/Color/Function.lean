import SmoothShading.Color.Rgb

/-!
# Color functions

A shading may store one parameter in place of a color and find the color by a function of it. Such
a function need not be defined everywhere, and neither need the conversion of its values to the
device.
-/

namespace SmoothShading

/-- Why a stored color has no painted color. -/
inductive ConversionError where
  /-- The function has no value there. -/
  | outsideFunction
  /-- Neither end of the function's domain is a number, so no parameter can be moved into it. -/
  | undefinedDomain
  /-- The color space cannot convert the components. -/
  | outsideSpace
deriving DecidableEq

/-- A partial map from stored components to those of a color space. -/
abbrev ColorFunction (C : Type) : Type := Color C → Except ConversionError (Color C)

end SmoothShading
