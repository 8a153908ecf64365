import Mathlib
import SmoothShading.Proofs.Mesh.Triangle

/-!
# The colors of a triangle as affine functions

Where the components of the corner colors are values of affine functions of the position, a triangle
with an area has the values of these functions over the whole plane, whichever way its corners go
round (`Triangle.colorAt_affine`). Colors at three points that are not on one line always are such
values. So the corners keep their colors, and triangles that have two corners in common do not
differ anywhere on the line through them: two affine functions that agree at two points agree on the
line through these.
-/

namespace SmoothShading

open Scalar

/-! ## Affine functions -/

/-- An affine function of the position. -/
structure Gradient where
  slopeX : ℚ
  slopeY : ℚ
  base : ℚ

namespace Gradient

def valueAt (g : Gradient) (p : Point ℚ) : ℚ := g.slopeX * p.x + g.slopeY * p.y + g.base

variable {g h : Gradient} {a b c p : Point ℚ}

/-- The areas that a point spans with the edges weigh the values at the opposite corners. -/
theorem sum_valueAt_mul_weight (g : Gradient) (harea : signedArea a b c ≠ 0) (p : Point ℚ) :
    g.valueAt a * (signedArea p b c / signedArea a b c) +
        g.valueAt b * (signedArea a p c / signedArea a b c) +
      g.valueAt c * (signedArea a b p / signedArea a b c) = g.valueAt p := by
  rw [mul_div_assoc', mul_div_assoc', mul_div_assoc', ← add_div, ← add_div, div_eq_iff harea]
  simp only [valueAt, signedArea]
  ring

/-- Some affine function has given values at three points that are not on one line. -/
theorem exists_valueAt_eq (harea : signedArea a b c ≠ 0) (x y z : ℚ) :
    ∃ g : Gradient, g.valueAt a = x ∧ g.valueAt b = y ∧ g.valueAt c = z := by
  let twice := 2 * signedArea a b c
  have htwice : twice ≠ 0 := mul_ne_zero two_ne_zero harea
  have hsolve {m n u v w : ℚ} (h : m * u + n * v = w * twice) :
      m / twice * u + n / twice * v = w := by
    rw [div_mul_eq_mul_div, div_mul_eq_mul_div, ← add_div, h, mul_div_cancel_right₀ w htwice]
  let dx := ((y - x) * (c.y - a.y) - (z - x) * (b.y - a.y)) / twice
  let dy := ((z - x) * (b.x - a.x) - (y - x) * (c.x - a.x)) / twice
  have hb : dx * (b.x - a.x) + dy * (b.y - a.y) = y - x := by
    refine hsolve ?_
    simp only [twice, signedArea]
    ring
  have hc : dx * (c.x - a.x) + dy * (c.y - a.y) = z - x := by
    refine hsolve ?_
    simp only [twice, signedArea]
    ring
  refine ⟨⟨dx, dy, x - dx * a.x - dy * a.y⟩, ?_, ?_, ?_⟩
  · simp only [valueAt]
    ring
  · simp only [valueAt]
    linear_combination hb
  · simp only [valueAt]
    linear_combination hc

/-- Along a line, an affine function grows in proportion to either coordinate. -/
theorem valueAt_sub_mul (g : Gradient) (hp : sideOf p a b = 0) :
    (g.valueAt p - g.valueAt a) * (b.x - a.x) = (g.valueAt b - g.valueAt a) * (p.x - a.x) ∧
      (g.valueAt p - g.valueAt a) * (b.y - a.y) = (g.valueAt b - g.valueAt a) * (p.y - a.y) := by
  simp only [sideOf] at hp
  simp only [valueAt]
  constructor
  · linear_combination -g.slopeY * hp
  · linear_combination g.slopeX * hp

/-- Affine functions with the same values at two points do not differ on the line through them. -/
theorem valueAt_eq_of_sideOf_eq_zero (hab : a ≠ b) (hp : sideOf p a b = 0)
    (ha : g.valueAt a = h.valueAt a) (hb : g.valueAt b = h.valueAt b) :
    g.valueAt p = h.valueAt p := by
  obtain ⟨hgx, hgy⟩ := g.valueAt_sub_mul hp
  obtain ⟨hhx, hhy⟩ := h.valueAt_sub_mul hp
  rw [ha, hb] at hgx hgy
  have hdx := hgx.trans hhx.symm
  have hdy := hgy.trans hhy.symm
  by_cases hx : b.x - a.x = 0
  · have hy : b.y - a.y ≠ 0 := fun hy =>
      hab (Point.ext (sub_eq_zero.mp hx).symm (sub_eq_zero.mp hy).symm)
    exact sub_left_injective (mul_right_cancel₀ hy hdy)
  · exact sub_left_injective (mul_right_cancel₀ hx hdx)

end Gradient

/-! ## Colors -/

namespace Color

/-- The color at a point, each component of which is an affine function of the position. -/
def ofGradients (gs : List Gradient) (p : Point ℚ) : Color ℚ := gs.map (·.valueAt p)

variable {gs hs : List Gradient} {a b c p : Point ℚ}

theorem blend₃_ofGradients (f : ℚ → ℚ → ℚ → ℚ) (gs : List Gradient) (a b c : Point ℚ) :
    blend₃ f (ofGradients gs a) (ofGradients gs b) (ofGradients gs c) =
      gs.map fun g => f (g.valueAt a) (g.valueAt b) (g.valueAt c) := by
  induction gs with
  | nil => rfl
  | cons g gs ih => exact congrArg (_ :: ·) ih

/-- Any colors of one kind at three points that are not on one line are those of affine
functions. -/
theorem exists_ofGradients_eq (harea : signedArea a b c ≠ 0) :
    ∀ {u v w : Color ℚ}, u.length = v.length → v.length = w.length →
      ∃ gs, ofGradients gs a = u ∧ ofGradients gs b = v ∧ ofGradients gs c = w
  | [], [], [], _, _ => ⟨[], rfl, rfl, rfl⟩
  | x :: u, y :: v, z :: w, huv, hvw => by
    obtain ⟨g, hx, hy, hz⟩ := Gradient.exists_valueAt_eq harea x y z
    obtain ⟨gs, hu, hv, hw⟩ := exists_ofGradients_eq harea (Nat.succ.inj huv) (Nat.succ.inj hvw)
    refine ⟨g :: gs, ?_, ?_, ?_⟩
    · rw [← hx, ← hu]
      rfl
    · rw [← hy, ← hv]
      rfl
    · rw [← hz, ← hw]
      rfl

theorem ofGradients_eq_of_sideOf_eq_zero (hab : a ≠ b) (hp : sideOf p a b = 0)
    (ha : ofGradients gs a = ofGradients hs a) (hb : ofGradients gs b = ofGradients hs b) :
    ofGradients gs p = ofGradients hs p := by
  induction gs generalizing hs with
  | nil =>
    cases hs with
    | nil => rfl
    | cons h hs => cases ha
  | cons g gs ih =>
    cases hs with
    | nil => cases ha
    | cons h hs =>
      obtain ⟨hga, hgsa⟩ := List.cons.inj ha
      obtain ⟨hgb, hgsb⟩ := List.cons.inj hb
      exact congrArg₂ (· :: ·) (Gradient.valueAt_eq_of_sideOf_eq_zero hab hp hga hgb)
        (ih hgsa hgsb)

end Color

/-! ## Quotients by zero -/

section Dividing

variable (byZero : ℚ → ℚ)

theorem tolerance_ratDividing : @tolerance ℚ (.ratDividing byZero) = tolerance :=
  ratDividing_div byZero (x := 1) (y := 1000) (by norm_num)

theorem signedArea_ratDividing (a b c : Point ℚ) :
    @signedArea ℚ (.ratDividing byZero) a b c = signedArea a b c :=
  ratDividing_div byZero (y := 2) two_ne_zero

theorem coincide_ratDividing (p q : Point ℚ) :
    @coincide ℚ (.ratDividing byZero) p q = coincide p q := by
  unfold coincide
  rw [tolerance_ratDividing]
  rfl

namespace Triangle

/-- The corner colors, each with a weight. -/
def weighted (t : Triangle ℚ ℚ) (wa wb wc : ℚ) : Color ℚ :=
  Color.blend₃ (fun x y z => x * wa + y * wb + z * wc) t.a.color t.b.color t.c.color

theorem shape_ratDividing {C : Type} (t : Triangle ℚ C) :
    @shape ℚ C (.ratDividing byZero) t = t.shape := by
  have hcoincidences : @coincidences ℚ C (.ratDividing byZero) t = t.coincidences := by
    unfold coincidences
    rw [coincide_ratDividing, coincide_ratDividing, coincide_ratDividing]
  have harea : @area ℚ C (.ratDividing byZero) t = t.area := signedArea_ratDividing byZero _ _ _
  unfold shape
  rw [hcoincidences, harea, tolerance_ratDividing]
  rfl

theorem properColor_ratDividing {t : Triangle ℚ ℚ} (harea : t.area ≠ 0) (p : Point ℚ) :
    @properColor ℚ ℚ (.ratDividing byZero) _ t p = t.properColor p := by
  have hwhole : @area ℚ ℚ (.ratDividing byZero) t = t.area := signedArea_ratDividing byZero _ _ _
  have hweight (a b c : Point ℚ) :
      (ratDividing byZero).div (@signedArea ℚ (.ratDividing byZero) a b c)
          (@area ℚ ℚ (.ratDividing byZero) t) = signedArea a b c / t.area := by
    rw [signedArea_ratDividing, hwhole, ratDividing_div byZero harea]
  have hcolor := congr
    (congrArg₂ t.weighted (hweight p t.b.point t.c.point) (hweight t.a.point p t.c.point))
    (hweight t.a.point t.b.point p)
  exact hcolor

theorem colorAt_ratDividing {t : Triangle ℚ ℚ} (hshape : t.shape = .proper) (p : Point ℚ) :
    @colorAt ℚ ℚ (.ratDividing byZero) _ t p = t.colorAt p := by
  unfold colorAt
  rw [shape_ratDividing, hshape]
  exact properColor_ratDividing byZero (area_ne_zero_of_shape hshape) p

end Triangle

end Dividing

/-! ## The colors of a triangle -/

namespace Triangle

def corners {K C : Type} (t : Triangle K C) : List (Vertex K C) := [t.a, t.b, t.c]

theorem forall_mem_corners {K C : Type} {t : Triangle K C} {P : Vertex K C → Prop} :
    (∀ v ∈ t.corners, P v) ↔ P t.a ∧ P t.b ∧ P t.c := by
  simp [corners]

/-- The corner colors are the values of affine functions, one for each component. -/
structure IsShadedBy (t : Triangle ℚ ℚ) (gs : List Gradient) : Prop where
  a : t.a.color = Color.ofGradients gs t.a.point
  b : t.b.color = Color.ofGradients gs t.b.point
  c : t.c.color = Color.ofGradients gs t.c.point

/-- The colors of all corners have the same number of components. -/
structure HasComponents (t : Triangle ℚ ℚ) (n : ℕ) : Prop where
  a : t.a.color.length = n
  b : t.b.color.length = n
  c : t.c.color.length = n

variable {s t : Triangle ℚ ℚ} {gs : List Gradient} {n : ℕ}

theorem HasComponents.exists_isShadedBy (h : t.HasComponents n) (harea : t.area ≠ 0) :
    ∃ gs, t.IsShadedBy gs := by
  obtain ⟨gs, ha, hb, hc⟩ :=
    Color.exists_ofGradients_eq harea (h.a.trans h.b.symm) (h.b.trans h.c.symm)
  exact ⟨gs, ha.symm, hb.symm, hc.symm⟩

theorem IsShadedBy.color_eq (h : t.IsShadedBy gs) {v : Vertex ℚ ℚ} (hv : v ∈ t.corners) :
    v.color = Color.ofGradients gs v.point := by
  simp only [corners, List.mem_cons, List.not_mem_nil, or_false] at hv
  rcases hv with rfl | rfl | rfl
  · exact h.a
  · exact h.b
  · exact h.c

theorem IsShadedBy.colorAt (h : t.IsShadedBy gs) (hshape : t.shape = .proper) (p : Point ℚ) :
    t.colorAt p = Color.ofGradients gs p := by
  unfold Triangle.colorAt
  rw [hshape]
  change t.properColor p = _
  unfold properColor
  dsimp only
  rw [h.a, h.b, h.c, Color.blend₃_ofGradients]
  exact List.map_congr_left fun g _ =>
    g.sum_valueAt_mul_weight (area_ne_zero_of_shape hshape) p

/-- A triangle with an area has, at every point of the plane, the values of the affine functions of
which its corner colors are values, and no quotient by zero is taken for them. So each corner has
its own color, and no difference is seen on the line through two corners that triangles share. -/
theorem colorAt_affine (hshape : t.shape = .proper) :
    (∀ gs, t.IsShadedBy gs → ∀ p, t.colorAt p = Color.ofGradients gs p) ∧
      (∀ byZero p, @colorAt ℚ ℚ (.ratDividing byZero) _ t p = t.colorAt p) ∧
      ∀ n, t.HasComponents n →
        (∀ v ∈ t.corners, t.colorAt v.point = v.color) ∧
          ∀ s : Triangle ℚ ℚ, s.shape = .proper → s.HasComponents n →
            ∀ v ∈ t.corners, v ∈ s.corners → ∀ w ∈ t.corners, w ∈ s.corners →
              v.point ≠ w.point → ∀ p, sideOf p v.point w.point = 0 →
                t.colorAt p = s.colorAt p := by
  have harea := area_ne_zero_of_shape hshape
  refine ⟨fun gs h p => h.colorAt hshape p, fun byZero => colorAt_ratDividing byZero hshape,
    fun n hn => ⟨?corner, ?sharedLine⟩⟩
  case corner =>
    intro v hv
    obtain ⟨gs, h⟩ := hn.exists_isShadedBy harea
    rw [h.colorAt hshape, h.color_eq hv]
  case sharedLine =>
    intro s hs hsn v hv hvs w hw hws hvw p hp
    obtain ⟨gs, ht⟩ := hn.exists_isShadedBy harea
    obtain ⟨es, he⟩ := hsn.exists_isShadedBy (area_ne_zero_of_shape hs)
    rw [ht.colorAt hshape, he.colorAt hs]
    refine Color.ofGradients_eq_of_sideOf_eq_zero hvw hp ?_ ?_
    · rw [← ht.color_eq hv, ← he.color_eq hvs]
    · rw [← ht.color_eq hw, ← he.color_eq hws]

/-- A triangle with a negative area and one behind its longest edge, at a corner, outside, and on
the edge continued beyond its end. -/
theorem colorAt_affine_negative :
    let t : Triangle ℚ ℚ := ⟨⟨⟨0, 0⟩, [1, 0]⟩, ⟨⟨0, 4⟩, [0, 1 / 2]⟩, ⟨⟨6, 0⟩, [1 / 4, 1]⟩⟩
    let s : Triangle ℚ ℚ := ⟨⟨⟨6, 4⟩, [5, 5]⟩, t.c, t.b⟩
    let gs : List Gradient := [⟨-1 / 8, -1 / 4, 1⟩, ⟨1 / 6, 1 / 8, 0⟩]
    t.area < 0 ∧ t.shape = .proper ∧ t.IsShadedBy gs ∧ t.colorAt ⟨-3, 8⟩ = [-5 / 8, 1 / 2] ∧
      t.colorAt ⟨0, 4⟩ = [0, 1 / 2] ∧ s.shape = .proper ∧
      t.colorAt ⟨12, -4⟩ = s.colorAt ⟨12, -4⟩ := by
  intro t s gs
  have hshape : t.shape = .proper := shape_eq_proper_iff.mpr (by decide +kernel)
  have hs : s.shape = .proper := shape_eq_proper_iff.mpr (by decide +kernel)
  have hshaded : t.IsShadedBy gs := ⟨by decide +kernel, by decide +kernel, by decide +kernel⟩
  obtain ⟨haffine, -, hcomponents⟩ := colorAt_affine hshape
  obtain ⟨hcorner, hline⟩ := hcomponents 2 ⟨rfl, rfl, rfl⟩
  have houtside : Color.ofGradients gs ⟨-3, 8⟩ = [-5 / 8, 1 / 2] := by decide +kernel
  refine ⟨by decide +kernel, hshape, hshaded, (haffine gs hshaded _).trans houtside,
    hcorner t.b (.tail _ (.head _)), hs, ?_⟩
  exact hline s hs ⟨rfl, rfl, rfl⟩ t.b (.tail _ (.head _)) (.tail _ (.tail _ (.head _))) t.c
    (.tail _ (.tail _ (.head _))) (.tail _ (.head _)) (fun h => by cases h) _ (by decide +kernel)

end Triangle

end SmoothShading
