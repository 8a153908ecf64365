import SmoothShading.Scalar

/-!
# Binary floating-point scalars

Geometry is computed in double precision and colors are stored in single precision. Both types
round every operation to the nearest value, ties to even.
-/

namespace SmoothShading

instance Scalar.instFloat : Scalar Float where
  ofNat := Float.ofNat
  ofInt := Float.ofInt
  decidableLT := inferInstance
  decidableLE := inferInstance
  sqrt := Float.sqrt
  floor := Float.floor
  ceil := Float.ceil
  round := Float.round
  trunc x := x.toInt64.toInt

instance Scalar.instFloat32 : Scalar Float32 where
  ofNat := Float32.ofNat
  ofInt := Float32.ofInt
  decidableLT := inferInstance
  decidableLE := inferInstance
  sqrt := Float32.sqrt
  floor := Float32.floor
  ceil := Float32.ceil
  round := Float32.round
  trunc x := x.toFloat.toInt64.toInt

instance Channel.instFloat32Float : Channel Float32 Float where
  widen := Float32.toFloat
  narrow := Float.toFloat32

end SmoothShading
