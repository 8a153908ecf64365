import SmoothShading.Scalar

/-!
# Decode ranges

A sample of a mesh stream stands for a number of a range: sample zero for its first end, the
largest sample for its last end, and the others for the values evenly spaced between.
-/

namespace SmoothShading

/-- The numbers that the smallest and the largest sample stand for, in either order. -/
structure DecodeRange (K : Type) where
  first : K
  last : K

namespace DecodeRange

/-- Takes numbers two by two as the ends of ranges. -/
def pairs {K : Type} : List K → List (DecodeRange K)
  | first :: last :: rest => ⟨first, last⟩ :: pairs rest
  | _ => []

variable {K : Type} [Scalar K]

/-- The number that `sample` stands for if `maxSample` is the largest one. Both ends are met
exactly, so that rounding opens no gap between neighbouring ranges. -/
def decode (r : DecodeRange K) (sample maxSample : Nat) : K :=
  if sample = 0 ∨ maxSample = 0 then r.first
  else if maxSample ≤ sample then r.last
  else r.first + Scalar.ofNat sample * (r.last - r.first) / Scalar.ofNat maxSample

end DecodeRange

end SmoothShading
