import Mathlib
import SmoothShading.Proofs.Mesh.AffineImage
import SmoothShading.Proofs.Mesh.ColorRange
import SmoothShading.Proofs.Mesh.Interpolation

/-!
# The box around a patch

A patch is painted within the smallest box around its sixteen control points
(`Patch.surface_mem_box`).

The weights of a cubic curve are not negative and add up to one, so that a box holds the curve as
soon as it holds the control points (`Cubic.excludes_eval`). A tensor-product surface is a curve
through points of such curves. The blend of a Coons patch is no mean, since it takes the corners
away once more; indeed it may leave the box around the boundary. But it is the tensor-product
surface of the whole grid, whose inner points make the box wide enough.
-/

namespace SmoothShading

open Scalar

/-! ## Boxes around points -/

namespace Box

/-- The smallest box around a point and some others. -/
def around {K : Type} [Scalar K] (p : Point K) (ps : List (Point K)) : Box K :=
  ps.foldl insert (ofPoints p p)

/-- A box grows with each point just as far as that point goes. -/
theorem excludes_foldl_insert (ps : List (Point ℚ)) (b : Box ℚ) (q : Point ℚ) :
    (ps.foldl insert b).excludes q = false ↔
      ((b.x0 ≤ q.x ∨ ∃ p ∈ ps, p.x ≤ q.x) ∧ (q.x ≤ b.x1 ∨ ∃ p ∈ ps, q.x ≤ p.x)) ∧
        (b.y0 ≤ q.y ∨ ∃ p ∈ ps, p.y ≤ q.y) ∧ (q.y ≤ b.y1 ∨ ∃ p ∈ ps, q.y ≤ p.y) := by
  induction ps generalizing b with
  | nil => simp [excludes_eq_false_iff]
  | cons p ps ih =>
    rw [List.foldl_cons, ih]
    simp only [insert, minNum_rat, maxNum_rat, min_le_iff, le_max_iff, List.exists_mem_cons_iff,
      or_assoc]

/-- A point is in the box if and only if, in each direction, some of the points are as far out. -/
theorem excludes_around (p : Point ℚ) (ps : List (Point ℚ)) (q : Point ℚ) :
    (around p ps).excludes q = false ↔
      ((∃ a ∈ p :: ps, a.x ≤ q.x) ∧ ∃ a ∈ p :: ps, q.x ≤ a.x) ∧
        (∃ a ∈ p :: ps, a.y ≤ q.y) ∧ ∃ a ∈ p :: ps, q.y ≤ a.y := by
  rw [around, excludes_foldl_insert]
  simp only [ofPoints, ordered, minNum_rat, maxNum_rat, min_self, max_self,
    List.exists_mem_cons_iff]

end Box

/-! ## Curves and surfaces in a box -/

/-- A mean with the weights of a cubic curve lies between the bounds of what it is the mean of. -/
theorem bernstein_mean_mem {a b c d t lo hi : ℚ} (h0 : 0 ≤ t) (h1 : t ≤ 1)
    (ha : lo ≤ a ∧ a ≤ hi) (hb : lo ≤ b ∧ b ≤ hi) (hc : lo ≤ c ∧ c ≤ hi) (hd : lo ≤ d ∧ d ≤ hi) :
    let w := bernstein t
    lo ≤ a * w.b0 + b * w.b1 + c * w.b2 + d * w.b3 ∧
      a * w.b0 + b * w.b1 + c * w.b2 + d * w.b3 ≤ hi := by
  obtain ⟨hw0, hw1, hw2, hw3⟩ := bernstein_nonneg h0 h1
  have hsum := bernstein_sum t
  intro w
  constructor
  · calc lo = lo * w.b0 + lo * w.b1 + lo * w.b2 + lo * w.b3 := by rw [hsum]; ring
      _ ≤ a * w.b0 + b * w.b1 + c * w.b2 + d * w.b3 := by
        gcongr
        exacts [ha.1, hb.1, hc.1, hd.1]
  · calc a * w.b0 + b * w.b1 + c * w.b2 + d * w.b3
        ≤ hi * w.b0 + hi * w.b1 + hi * w.b2 + hi * w.b3 := by
          gcongr
          exacts [ha.2, hb.2, hc.2, hd.2]
      _ = hi := by rw [hsum]; ring

section Holds

variable {b : Box ℚ} {u v : ℚ}

/-- A box that holds the control points of a curve holds the curve. -/
theorem Cubic.excludes_eval {c : Cubic ℚ}
    (h : ∀ p ∈ [c.p0, c.p1, c.p2, c.p3], b.excludes p = false) (h0 : 0 ≤ u) (h1 : u ≤ 1) :
    b.excludes (c.eval u) = false := by
  simp only [List.forall_mem_cons, Box.excludes_eq_false_iff] at h
  obtain ⟨hp0, hp1, hp2, hp3, -⟩ := h
  rw [c.eval_eq_bernstein, Box.excludes_eq_false_iff]
  exact ⟨bernstein_mean_mem h0 h1 hp0.1 hp1.1 hp2.1 hp3.1,
    bernstein_mean_mem h0 h1 hp0.2 hp1.2 hp2.2 hp3.2⟩

/-- A box that holds all control points holds the tensor-product surface. -/
theorem Grid.excludes_tensorEval {g : Grid ℚ} (h : ∀ p ∈ g.toList, b.excludes p = false)
    (hu : 0 ≤ u ∧ u ≤ 1) (hv : 0 ≤ v ∧ v ≤ 1) : b.excludes (g.tensorEval u v) = false := by
  have hrow : ∀ r ∈ [g.row0, g.row1, g.row2, g.row3], b.excludes (r.eval v) = false := by
    intro r hr
    exact Cubic.excludes_eval (fun p hp => h p (List.mem_flatMap.mpr ⟨r, hr, hp⟩)) hv.1 hv.2
  have hcurve : ∀ p ∈ [g.row0, g.row1, g.row2, g.row3].map (·.eval v), b.excludes p = false :=
    List.forall_mem_map.mpr hrow
  rw [g.tensorEval_eq_eval]
  exact Cubic.excludes_eval hcurve hu.1 hu.2

end Holds

/-! ## Patches -/

/-- The smallest box around the control points. -/
def Grid.box {K : Type} [Scalar K] (g : Grid K) : Box K := Box.around g.row0.p0 g.toList

theorem Grid.box_excludes_of_mem {g : Grid ℚ} {p : Point ℚ} (hp : p ∈ g.toList) :
    g.box.excludes p = false := by
  have hmem : p ∈ g.row0.p0 :: g.toList := List.mem_cons_of_mem _ hp
  exact (Box.excludes_around _ _ p).mpr
    ⟨⟨⟨p, hmem, le_refl _⟩, p, hmem, le_refl _⟩, ⟨p, hmem, le_refl _⟩, p, hmem, le_refl _⟩

namespace Patch

variable {C : Type}

theorem box_excludes_eval (kind : PatchKind) (points : Vector (Point ℚ) kind.points)
    (colors : Vector (Color C) 4) {u v : ℚ} (hu : 0 ≤ u ∧ u ≤ 1) (hv : 0 ≤ v ∧ v ≤ 1) :
    let p := ofPoints kind points colors
    p.grid.box.excludes (p.eval u v) = false := by
  intro p
  have hsurface : p.eval u v = p.grid.tensorEval u v := by
    cases kind with
    | coons => exact Grid.coonsEval_ofBoundary points u v
    | tensor => rfl
  rw [hsurface]
  exact Grid.excludes_tensorEval (fun q hq => Grid.box_excludes_of_mem hq) hu hv

/-- Over the unit square the surface of a patch stays in the smallest box around the control points,
and no triangle that the patch is painted as has a corner outside of this box. -/
theorem surface_mem_box [Channel C ℚ] (kind : PatchKind) (points : Vector (Point ℚ) kind.points)
    (colors : Vector (Color C) 4) :
    let p := ofPoints kind points colors
    (∀ u v, 0 ≤ u ∧ u ≤ 1 → 0 ≤ v ∧ v ≤ 1 → p.grid.box.excludes (p.eval u v) = false) ∧
      ∀ s ∈ p.triangles, ∀ w ∈ s.corners, p.grid.box.excludes w.point = false := by
  intro p
  have hsurface : ∀ u v, 0 ≤ u ∧ u ≤ 1 → 0 ≤ v ∧ v ≤ 1 →
      p.grid.box.excludes (p.eval u v) = false :=
    fun u v hu hv => box_excludes_eval kind points colors hu hv
  refine ⟨hsurface, fun s hs => Triangle.forall_mem_corners.mpr ?_⟩
  exact forall_mem_triangles (P := fun w => p.grid.box.excludes w.point = false) hsurface hs

/-- A Coons patch whose surface bulges out of the box around its boundary: none of the twelve points
has a coordinate above eight. -/
theorem surface_mem_box_bulging :
    let points : Vector (Point ℚ) 12 :=
      #v[⟨0, 0⟩, ⟨8, 2⟩, ⟨8, 4⟩, ⟨0, 6⟩, ⟨8, 6⟩, ⟨8, 6⟩, ⟨0, 6⟩, ⟨8, 4⟩, ⟨8, 2⟩, ⟨0, 0⟩, ⟨8, 0⟩,
        ⟨8, 0⟩]
    let colors : Vector (Color ℚ) 4 := #v[[0], [1 / 4], [1 / 2], [1]]
    let p := ofPoints .coons points colors
    ((0 : ℚ) ≤ 1 / 2 ∧ (1 / 2 : ℚ) ≤ 1) ∧ (∀ q ∈ points, q.x ≤ 8) ∧
      (p.eval (1 / 2) (1 / 2)).x = 12 ∧
      p.grid.box.excludes (p.eval (1 / 2) (1 / 2)) = false ∧
      ∃ s ∈ p.triangles, 8 < s.a.point.x ∧ p.grid.box.excludes s.a.point = false := by
  intro points colors p
  obtain ⟨hsurface, htriangles⟩ := surface_mem_box .coons points colors
  have hhalf : (0 : ℚ) ≤ 1 / 2 ∧ (1 / 2 : ℚ) ≤ 1 := by norm_num
  have hbulge : (p.triangles.any fun s => decide (8 < s.a.point.x)) = true := by decide +kernel
  obtain ⟨s, hs, hx⟩ := List.any_eq_true.mp hbulge
  refine ⟨hhalf, by decide +kernel, by decide +kernel, hsurface _ _ hhalf hhalf, s, hs, ?_, ?_⟩
  · exact of_decide_eq_true hx
  · exact htriangles s hs s.a List.mem_cons_self

end Patch

end SmoothShading
