/-!
# Scalars

The numbers that coordinates and colors are computed with. Every definition that touches a
coordinate is stated over a `Scalar`, so one text both paints with binary floating-point numbers
and can be reasoned about over exact ones. Since rounding depends on it, no definition may
reassociate a sum or a product.

Some scalars are not numbers: they compare with nothing, not even with themselves. The derived
operations below (`minNum`, `maxNum`, `clamp`, `isFinite`) fix what happens to them.

`Channel` connects the scalars a color is stored in with the wider ones it is computed in.
-/

namespace SmoothShading

/-- An ordered number type with the arithmetic of the plane. Nothing is assumed about its laws:
a machine type rounds, saturates and may hold values that are not numbers. -/
class Scalar (K : Type) extends Add K, Sub K, Mul K, Div K, Neg K, LT K, LE K, BEq K where
  /-- The scalar nearest to a natural number. -/
  ofNat : Nat → K
  /-- The scalar nearest to an integer. -/
  ofInt : Int → K
  decidableLT : DecidableLT K
  decidableLE : DecidableLE K
  /-- The square root, rounded where it is not representable. -/
  sqrt : K → K
  floor : K → K
  ceil : K → K
  /-- The nearest integer, a half going away from zero. -/
  round : K → K
  /-- The integer part. What is not a number has integer part zero, and a machine type may stop
  at the ends of a 64-bit range. -/
  trunc : K → Int

instance Scalar.instDecidableLT {K : Type} [Scalar K] : DecidableLT K := Scalar.decidableLT

instance Scalar.instDecidableLE {K : Type} [Scalar K] : DecidableLE K := Scalar.decidableLE

instance (priority := low) Scalar.instOfNat {K : Type} [Scalar K] (n : Nat) : OfNat K n :=
  ⟨Scalar.ofNat n⟩

namespace Scalar

variable {K : Type} [Scalar K]

/-- Only what is not a number fails to be at most itself. -/
def isNumber (x : K) : Bool := x ≤ x

/-- An infinite value differs from itself by something that is not a number. -/
def isFinite (x : K) : Bool := isNumber (x - x)

/-- The smaller of two scalars; one that is not a number gives way to the other. -/
def minNum (x y : K) : K :=
  if isNumber x then (if y < x then y else x) else y

/-- The larger of two scalars; one that is not a number gives way to the other. -/
def maxNum (x y : K) : K :=
  if isNumber x then (if x < y then y else x) else y

def abs (x : K) : K := if x < 0 then -x else x

/-- Moves `x` into `[lo, hi]`; what is not a number stays as it is. -/
def clamp (lo hi x : K) : K :=
  let x := if x < lo then lo else x
  if hi < x then hi else x

end Scalar

/-- Colors are stored in `C` and computed in `K`: `widen` reads a stored channel and `narrow`
rounds a computed one for storage. -/
class Channel (C K : Type) where
  widen : C → K
  narrow : K → C

end SmoothShading
