import Mathlib
import SmoothShading.Proofs.Lawful
import SmoothShading.Proofs.Mesh.Interpolation
import SmoothShading.Proofs.Mesh.Tiling

/-!
# The order of the corners

A triangle with an area is the same in every order of its corners: it has the same points, those on
its edges and in its corners included, and the same colors (`Triangle.contains_colorAt_of_perm`).

All orders come of exchanging two corners and of going round. To go round changes nothing but where
the list of edges starts. To exchange two corners negates the area. The edges are then passed in the
other direction, which is why the test of the edges is made for the opposite order, and both the
area that a point spans with two corners and the whole area change their signs.
-/

namespace SmoothShading

open Scalar

/-! ## Blending in another order -/

namespace Color

variable {C : Type} [Channel C ℚ]

theorem blend₃_swap (f : ℚ → ℚ → ℚ → ℚ) (c d e : Color C) :
    blend₃ (fun x y z => f y x z) d c e = blend₃ f c d e := by
  induction c generalizing d e with
  | nil => simp only [blend₃, List.zip_nil_right, List.zip_nil_left, List.zipWith_nil_left]
  | cons x c ih =>
    rcases d with - | ⟨y, d⟩
    · rfl
    · rcases e with - | ⟨z, e⟩
      · rfl
      · exact congrArg (_ :: ·) (ih d e)

theorem blend₃_rotate (f : ℚ → ℚ → ℚ → ℚ) (c d e : Color C) :
    blend₃ (fun y z x => f x y z) d e c = blend₃ f c d e := by
  induction c generalizing d e with
  | nil => simp only [blend₃, List.zip_nil_left, List.zipWith_nil_left, List.zipWith_nil_right]
  | cons x c ih =>
    rcases d with - | ⟨y, d⟩
    · rfl
    · rcases e with - | ⟨z, e⟩
      · rfl
      · exact congrArg (_ :: ·) (ih d e)

end Color

namespace Triangle

/-- The same triangle with its first two corners exchanged. -/
def swap {K C : Type} (t : Triangle K C) : Triangle K C := ⟨t.b, t.a, t.c⟩

/-- The same triangle from its second corner on. -/
def rotate {K C : Type} (t : Triangle K C) : Triangle K C := ⟨t.b, t.c, t.a⟩

variable {C : Type} {t : Triangle ℚ C}

/-! ## The shape -/

theorem area_swap (t : Triangle ℚ C) : t.swap.area = -t.area := by
  rw [area, area, ← signedArea_swap, ← signedArea_rotate]
  rfl

theorem area_rotate (t : Triangle ℚ C) : t.rotate.area = t.area := signedArea_rotate _ _ _

theorem coincidences_swap (t : Triangle ℚ C) : t.swap.coincidences = t.coincidences := by
  simp only [coincidences, swap, coincide_comm t.b.point t.a.point]
  omega

theorem coincidences_rotate (t : Triangle ℚ C) : t.rotate.coincidences = t.coincidences := by
  simp only [coincidences, rotate, coincide_comm t.b.point t.a.point,
    coincide_comm t.c.point t.a.point]
  omega

theorem shape_swap (h : t.shape = .proper) : t.swap.shape = .proper := by
  rw [shape_eq_proper_iff] at h ⊢
  rwa [coincidences_swap, area_swap, abs_neg]

theorem shape_rotate (h : t.shape = .proper) : t.rotate.shape = .proper := by
  rw [shape_eq_proper_iff] at h ⊢
  rwa [coincidences_rotate, area_rotate]

/-! ## The points -/

/-- Whether a point lies on the inner sides of three edges that follow each other. -/
def insideEdges (p a b c : Point ℚ) : Bool :=
  insideEdge p a b && insideEdge p b c && insideEdge p c a

theorem insideEdges_rotate (p a b c : Point ℚ) : insideEdges p b c a = insideEdges p a b c := by
  rw [insideEdges, insideEdges, Bool.and_comm, Bool.and_assoc]

theorem properContains_eq (t : Triangle ℚ C) (p : Point ℚ) :
    t.properContains p =
      if 0 < t.area then insideEdges p t.a.point t.b.point t.c.point
      else insideEdges p t.a.point t.c.point t.b.point := rfl

theorem properContains_swap (harea : t.area ≠ 0) (p : Point ℚ) :
    t.swap.properContains p = t.properContains p := by
  rw [properContains_eq, properContains_eq, area_swap]
  -- The edges of the one order and those of the opposite order of the other are the same three,
  -- from another corner on.
  rcases lt_or_gt_of_ne harea with hneg | hpos
  · rw [if_pos (neg_pos.mpr hneg), if_neg hneg.not_gt]
    exact (insideEdges_rotate p t.b.point t.a.point t.c.point).symm
  · rw [if_neg (neg_neg_of_pos hpos).not_gt, if_pos hpos]
    exact insideEdges_rotate p t.a.point t.b.point t.c.point

theorem properContains_rotate (t : Triangle ℚ C) (p : Point ℚ) :
    t.rotate.properContains p = t.properContains p := by
  rw [properContains_eq, properContains_eq, area_rotate]
  by_cases hpos : 0 < t.area
  · rw [if_pos hpos, if_pos hpos]
    exact insideEdges_rotate p t.a.point t.b.point t.c.point
  · rw [if_neg hpos, if_neg hpos]
    exact (insideEdges_rotate p t.b.point t.a.point t.c.point).symm

/-! ## The colors -/

variable [Channel C ℚ]

theorem properColor_swap (t : Triangle ℚ C) (p : Point ℚ) :
    t.swap.properColor p = t.properColor p := by
  have hweight (a b c : Point ℚ) : signedArea b a c / -t.area = signedArea a b c / t.area := by
    rw [← signedArea_rotate, signedArea_swap, neg_div_neg_eq]
  have hlast : signedArea p t.a.point t.c.point / -t.area =
      signedArea t.a.point p t.c.point / t.area := hweight _ _ _
  unfold properColor
  rw [area_swap, ← Color.blend₃_swap _ t.a.color]
  dsimp only [swap]
  rw [hweight p, hweight, hweight]
  refine congrArg (Color.blend₃ · _ _ _) (funext fun y => funext fun x => funext fun z => ?_)
  ring

theorem properColor_rotate (t : Triangle ℚ C) (p : Point ℚ) :
    t.rotate.properColor p = t.properColor p := by
  unfold properColor
  rw [area_rotate, ← Color.blend₃_rotate _ t.a.color]
  dsimp only [rotate]
  rw [signedArea_rotate t.a.point p, signedArea_rotate t.a.point t.b.point,
    signedArea_rotate p t.b.point]
  refine congrArg (Color.blend₃ · _ _ _) (funext fun y => funext fun z => funext fun x => ?_)
  ring

/-! ## Every order -/

/-- Whether a triangle has an area, and the same points and colors as another one. -/
structure IsReordered (t s : Triangle ℚ C) : Prop where
  shape : s.shape = .proper
  properContains : ∀ p, s.properContains p = t.properContains p
  properColor : ∀ p, s.properColor p = t.properColor p

theorem IsReordered.swap {s : Triangle ℚ C} (h : t.IsReordered s) : t.IsReordered s.swap where
  shape := shape_swap h.shape
  properContains p := by
    rw [properContains_swap (area_ne_zero_of_shape h.shape), h.properContains]
  properColor p := by rw [properColor_swap, h.properColor]

theorem IsReordered.rotate {s : Triangle ℚ C} (h : t.IsReordered s) : t.IsReordered s.rotate where
  shape := shape_rotate h.shape
  properContains p := by rw [properContains_rotate, h.properContains]
  properColor p := by rw [properColor_rotate, h.properColor]

/-- A triangle with an area is the same in each of the six orders of its corners, in its points and
in the colors all over the plane. -/
theorem contains_colorAt_of_perm {s t : Triangle ℚ C} (hshape : t.shape = .proper)
    (hperm : s.corners.Perm t.corners) :
    s.shape = .proper ∧ (∀ p, s.contains p = t.contains p) ∧ ∀ p, s.colorAt p = t.colorAt p := by
  have hself : t.IsReordered t := ⟨hshape, fun _ => rfl, fun _ => rfl⟩
  have hs : t.IsReordered s :=
    (iff_of_perm_three (P := fun a b c => t.IsReordered ⟨a, b, c⟩) hperm
      (fun _ _ _ h => h.swap) fun _ _ _ h => h.rotate).mpr hself
  refine ⟨hs.shape, fun p => ?_, fun p => ?_⟩
  · rw [contains_of_proper hs.shape, contains_of_proper hshape, hs.properContains]
  · rw [colorAt_of_proper hs.shape, colorAt_of_proper hshape, hs.properColor]

/-- A triangle with a negative area, turned around: a point of the edge that it takes, one of an
edge that it does not take, and a point outside. -/
theorem contains_colorAt_of_perm_reversed :
    let t : Triangle ℚ ℚ := ⟨⟨⟨0, 0⟩, [1, 0]⟩, ⟨⟨0, 4⟩, [0, 1 / 2]⟩, ⟨⟨6, 0⟩, [1 / 4, 1]⟩⟩
    let s : Triangle ℚ ℚ := ⟨t.c, t.b, t.a⟩
    (t.area < 0 ∧ t.shape = .proper ∧ s.corners.Perm t.corners) ∧ s.shape = .proper ∧
      (s.contains ⟨3, 0⟩ = true ∧ s.contains ⟨3, 2⟩ = false) ∧
      s.colorAt ⟨-3, 8⟩ = [-5 / 8, 1 / 2] := by
  intro t s
  have hshape : t.shape = .proper := shape_eq_proper_iff.mpr (by decide +kernel)
  have hperm : s.corners.Perm t.corners := t.corners.reverse_perm
  have hpoints : t.properContains ⟨3, 0⟩ = true ∧ t.properContains ⟨3, 2⟩ = false := by
    decide +kernel
  have hcolor : t.properColor ⟨-3, 8⟩ = [-5 / 8, 1 / 2] := by decide +kernel
  obtain ⟨hs, hcontains, hcolorAt⟩ := contains_colorAt_of_perm hshape hperm
  rw [← contains_of_proper hshape, ← contains_of_proper hshape, ← hcontains, ← hcontains] at hpoints
  rw [← colorAt_of_proper hshape, ← hcolorAt] at hcolor
  exact ⟨⟨by decide +kernel, hshape, hperm⟩, hs, hpoints, hcolor⟩

end Triangle

end SmoothShading
