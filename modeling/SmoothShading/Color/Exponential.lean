import SmoothShading.Color.Function
import SmoothShading.Scalar.Binary

/-!
# Exponential functions

The interpolation between two colors by a power of a parameter.
-/

namespace SmoothShading

/-- The function that takes `x` to `c0 + x ^ exponent * (c1 - c0)`. -/
structure Exponential where
  domainStart : Float32
  domainEnd : Float32
  c0 : Color Float32
  c1 : Color Float32
  exponent : Float32

namespace Exponential

open Scalar

/-- The value at the first component of the input, moved into the domain. The ends of the domain
may stand in either order, and one that is not a number is replaced by the other. -/
def eval (f : Exponential) : ColorFunction Float32
  | [] => .error .outsideFunction
  | x :: _ =>
    let lo := minNum f.domainStart f.domainEnd
    let hi := maxNum f.domainEnd f.domainStart
    if isNumber lo then
      let power := (clamp lo hi x).pow f.exponent
      .ok (List.zipWith (fun c0 c1 => c0 + power * (c1 - c0)) f.c0 f.c1)
    else .error .undefinedDomain

end Exponential

end SmoothShading
