/-!
# Errors

What makes a shading unusable. A damaged stream of records does not: whatever can be read of it is
painted.
-/

namespace SmoothShading

/-- A fault in the description of a shading. -/
inductive ShadingError where
  /-- Samples of this many bits cannot be read. -/
  | invalidBitSize (bits : Nat)
  /-- The decode array is too short for the coordinates and components. -/
  | invalidDecodeArray
  /-- A lattice with rows of this many vertices has no cells. -/
  | invalidVerticesPerRow (count : Nat)
  /-- An axial shading has no colors but those of its function. -/
  | missingFunction
  /-- The background does not have the components of the color space. -/
  | componentMismatch
deriving DecidableEq

/-- The text shown to a user. -/
def ShadingError.message : ShadingError → String
  | invalidBitSize bits => "invalid bit size " ++ toString bits
  | invalidDecodeArray => "invalid decode array"
  | invalidVerticesPerRow count => "invalid number of vertices per row " ++ toString count
  | missingFunction => "missing shading function"
  | componentMismatch => "mismatched number of color components"

end SmoothShading
