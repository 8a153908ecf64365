import Mathlib
import SmoothShading.Plane.Affine
import SmoothShading.Plane.Orientation
import SmoothShading.Proofs.Exact

/-!
# Affine maps without rounding

A map with a determinant other than zero has an inverse (`Affine.apply_inverse`,
`Affine.inverse_apply`), and it takes the sides of a line to the sides of the image of the line
(`Affine.sideOf_apply`). Areas grow by the determinant (`Affine.signedArea_apply`).
-/

namespace SmoothShading

namespace Affine

variable {t : Affine ℚ}

theorem apply_inverse (h : t.determinant ≠ 0) (p : Point ℚ) : t.apply (t.inverse.apply p) = p := by
  simp only [determinant] at h
  ext
  all_goals
    simp only [apply, inverse, determinant]
    field_simp
    ring

theorem inverse_apply (h : t.determinant ≠ 0) (p : Point ℚ) : t.inverse.apply (t.apply p) = p := by
  simp only [determinant] at h
  ext
  all_goals
    simp only [apply, inverse, determinant]
    field_simp
    ring

theorem sideOf_apply (t : Affine ℚ) (p a b : Point ℚ) :
    sideOf (t.apply p) (t.apply a) (t.apply b) = t.determinant * sideOf p a b := by
  simp only [sideOf, apply, determinant]
  ring

theorem signedArea_apply (t : Affine ℚ) (a b c : Point ℚ) :
    signedArea (t.apply a) (t.apply b) (t.apply c) = t.determinant * signedArea a b c := by
  simp only [signedArea, apply, determinant]
  ring

end Affine

end SmoothShading
