import Mathlib
import SmoothShading.Proofs.Mesh.Tiling
import SmoothShading.Proofs.Plane.Affine
import SmoothShading.Proofs.Stream.LatticeForm
import SmoothShading.Stream.LatticeForm

/-!
# Lattices of equal cells

The vertices of a lattice-form mesh may be the points of an affine grid, so that all cells are
translates of one parallelogram. Then the triangles of the mesh share out the parallelogram of the
whole grid (`LatticeForm.countP_contains_decode`).

The grid is the image of the integer points of the plane. Where the preimage of a point lies, once
the point is moved a little off all edges, says how many triangles contain the point: a cell
contributes one if the preimage is in the unit square of that cell, cells add up to rows, and rows
to the grid.
-/

namespace SmoothShading

open Filter Topology

/-! ## Insides and affine maps -/

namespace IsInside

variable {m : Affine ℚ} {p q a b c : Point ℚ}

theorem apply (h : IsInside q a b c) (m : Affine ℚ) :
    IsInside (m.apply q) (m.apply a) (m.apply b) (m.apply c) := by
  obtain ⟨u, v, w, hu, hv, hw, hsum, rfl⟩ := h
  refine ⟨u, v, w, hu, hv, hw, hsum, ?_⟩
  obtain rfl : u = 1 - v - w := by linarith
  ext
  · simp only [Affine.apply, Point.add_x, Point.add_y, Point.mul_x, Point.mul_y]
    ring
  · simp only [Affine.apply, Point.add_x, Point.add_y, Point.mul_x, Point.mul_y]
    ring

theorem apply_iff (hdet : m.determinant ≠ 0) :
    IsInside p (m.apply a) (m.apply b) (m.apply c) ↔ IsInside (m.inverse.apply p) a b c := by
  constructor
  · intro h
    have hinverse := h.apply m.inverse
    rwa [Affine.inverse_apply hdet, Affine.inverse_apply hdet, Affine.inverse_apply hdet]
      at hinverse
  · intro h
    have happly := h.apply m
    rwa [Affine.apply_inverse hdet] at happly

end IsInside

/-! ## The two halves of a unit square -/

section UnitSquare

variable {g : Point ℚ} {x y : ℚ}

theorem isInside_upper_iff :
    IsInside g ⟨x, y⟩ ⟨x + 1, y⟩ ⟨x, y + 1⟩ ↔ x < g.x ∧ y < g.y ∧ g.x + g.y < x + y + 1 := by
  have harea : 0 < (1 : ℚ) * signedArea (⟨x, y⟩ : Point ℚ) ⟨x + 1, y⟩ ⟨x, y + 1⟩ := by
    simp only [signedArea]
    norm_num
  rw [isInside_iff harea]
  simp only [sideOf]
  constructor
  · rintro ⟨htop, hdiagonal, hleft⟩
    refine ⟨?_, ?_, ?_⟩ <;> linarith
  · rintro ⟨hleft, htop, hdiagonal⟩
    refine ⟨?_, ?_, ?_⟩ <;> linarith

theorem isInside_lower_iff :
    IsInside g ⟨x + 1, y⟩ ⟨x, y + 1⟩ ⟨x + 1, y + 1⟩ ↔
      g.x < x + 1 ∧ g.y < y + 1 ∧ x + y + 1 < g.x + g.y := by
  have harea :
      0 < (-1 : ℚ) * signedArea (⟨x + 1, y⟩ : Point ℚ) ⟨x, y + 1⟩ ⟨x + 1, y + 1⟩ := by
    simp only [signedArea]
    norm_num
  rw [isInside_iff harea]
  simp only [sideOf]
  constructor
  · rintro ⟨hdiagonal, hbottom, hright⟩
    refine ⟨?_, ?_, ?_⟩ <;> linarith
  · rintro ⟨hright, hbottom, hdiagonal⟩
    refine ⟨?_, ?_, ?_⟩ <;> linarith

end UnitSquare

/-! ## Intervals side by side -/

/-- One if a number lies between two others and is neither of them, and zero otherwise. -/
def strictlyWithin (lo hi x : ℚ) : ℕ := if lo < x ∧ x < hi then 1 else 0

section Intervals

variable {lo mid hi x : ℚ}

theorem strictlyWithin_le_one (lo hi x : ℚ) : strictlyWithin lo hi x ≤ 1 := by
  unfold strictlyWithin
  split
  · exact le_refl 1
  · exact Nat.zero_le 1

theorem strictlyWithin_of_mem (h : lo < x ∧ x < hi) : strictlyWithin lo hi x = 1 := if_pos h

theorem strictlyWithin_of_not_mem (h : ¬ (lo < x ∧ x < hi)) : strictlyWithin lo hi x = 0 :=
  if_neg h

theorem strictlyWithin_add (h₁ : lo ≤ mid) (h₂ : mid ≤ hi) (hx : x ≠ mid) :
    strictlyWithin lo mid x + strictlyWithin mid hi x = strictlyWithin lo hi x := by
  unfold strictlyWithin
  rcases lt_or_gt_of_ne hx with hx | hx
  · have hright : ¬ (mid < x ∧ x < hi) := fun h => hx.not_gt h.1
    have hleft : lo < x ∧ x < mid ↔ lo < x ∧ x < hi :=
      and_congr_right fun _ => iff_of_true hx (hx.trans_le h₂)
    rw [if_neg hright, add_zero]
    exact if_congr hleft rfl rfl
  · have hleft : ¬ (lo < x ∧ x < mid) := fun h => hx.not_gt h.2
    have hright : mid < x ∧ x < hi ↔ lo < x ∧ x < hi :=
      and_congr_left fun _ => iff_of_true hx (h₁.trans_lt hx)
    rw [if_neg hleft, zero_add]
    exact if_congr hright rfl rfl

/-- What counts in unit intervals side by side counts in the interval that they make up. -/
theorem eventually_countP_flatMap_range {α : Type} {l : Filter ℚ} {part : ℕ → List α}
    {f : α → Bool} {c : ℚ → ℚ} {k : ℚ → ℕ} {n : ℕ} (hc : ∀ j : ℕ, ∀ᶠ ε in l, c ε ≠ j)
    (hpart : ∀ j < n, ∀ᶠ ε in l, (part j).countP f = strictlyWithin j (j + 1) (c ε) * k ε) :
    ∀ᶠ ε in l, ((List.range n).flatMap part).countP f = strictlyWithin 0 n (c ε) * k ε := by
  induction n with
  | zero =>
    refine Eventually.of_forall fun ε => ?_
    have hempty : strictlyWithin 0 (0 : ℕ) (c ε) = 0 := by
      apply strictlyWithin_of_not_mem
      rw [Nat.cast_zero]
      exact fun h => h.1.not_gt h.2
    rw [hempty, zero_mul]
    rfl
  | succ n ih =>
    have hbefore := ih fun j hj => hpart j (hj.trans n.lt_succ_self)
    filter_upwards [hbefore, hpart n n.lt_succ_self, hc n] with ε hbefore hlast hc
    rw [List.range_succ, List.flatMap_append, List.countP_append, hbefore,
      List.flatMap_singleton, hlast, ← add_mul,
      strictlyWithin_add n.cast_nonneg (by linarith) hc, Nat.cast_succ]

end Intervals

theorem eventually_strictlyWithin {c : ℚ → ℚ} {lo hi : ℚ} (hc : ContinuousAt c 0)
    (h : lo < c 0 ∧ c 0 < hi) : ∀ᶠ ε in 𝓝[>] (0 : ℚ), strictlyWithin lo hi (c ε) = 1 := by
  have hnear : ∀ᶠ ε in 𝓝 (0 : ℚ), c ε ∈ Set.Ioo lo hi := hc.eventually (Ioo_mem_nhds h.1 h.2)
  filter_upwards [hnear.filter_mono nhdsWithin_le_nhds] with ε hε
  exact strictlyWithin_of_mem hε

/-! ## Cells of a grid -/

variable {C : Type}

/-- The corners of a cell are the images of the corners of the unit square at `(x, y)`. -/
structure Cell.IsAt (q : Cell (Vertex ℚ C)) (m : Affine ℚ) (x y : ℚ) : Prop where
  topLeft : q.topLeft.point = m.apply ⟨x, y⟩
  topRight : q.topRight.point = m.apply ⟨x + 1, y⟩
  bottomLeft : q.bottomLeft.point = m.apply ⟨x, y + 1⟩
  bottomRight : q.bottomRight.point = m.apply ⟨x + 1, y + 1⟩

/-- A point that was moved a little has its preimage on no given line. -/
theorem eventually_sideOf_preimage_ne_zero {m : Affine ℚ} (hdet : m.determinant ≠ 0)
    {a b : Point ℚ} (hab : a ≠ b) (p : Point ℚ) :
    ∀ᶠ ε in 𝓝[>] (0 : ℚ), sideOf (m.inverse.apply (p.nudge ε)) a b ≠ 0 := by
  have himage : m.apply a ≠ m.apply b := by
    intro h
    apply hab
    rw [← Affine.inverse_apply hdet a, h, Affine.inverse_apply hdet]
  filter_upwards [eventually_insideEdge_iff himage p] with ε hε
  obtain ⟨hside, -⟩ := hε
  rw [← Affine.apply_inverse hdet (p.nudge ε), Affine.sideOf_apply] at hside
  exact right_ne_zero_of_mul hside

theorem eventually_preimage_x_ne {m : Affine ℚ} (hdet : m.determinant ≠ 0) (p : Point ℚ) (x : ℚ) :
    ∀ᶠ ε in 𝓝[>] (0 : ℚ), (m.inverse.apply (p.nudge ε)).x ≠ x := by
  have hab : (⟨x, 0⟩ : Point ℚ) ≠ ⟨x, 1⟩ := by
    intro h
    exact zero_ne_one (congrArg Point.y h)
  filter_upwards [eventually_sideOf_preimage_ne_zero hdet hab p] with ε hε h
  apply hε
  simp only [sideOf, h]
  ring

theorem eventually_preimage_y_ne {m : Affine ℚ} (hdet : m.determinant ≠ 0) (p : Point ℚ) (y : ℚ) :
    ∀ᶠ ε in 𝓝[>] (0 : ℚ), (m.inverse.apply (p.nudge ε)).y ≠ y := by
  have hab : (⟨0, y⟩ : Point ℚ) ≠ ⟨1, y⟩ := by
    intro h
    exact zero_ne_one (congrArg Point.x h)
  filter_upwards [eventually_sideOf_preimage_ne_zero hdet hab p] with ε hε h
  apply hε
  simp only [sideOf, h]
  ring

theorem continuous_preimage_nudge (m : Affine ℚ) (p : Point ℚ) :
    Continuous (fun ε => (m.inverse.apply (p.nudge ε)).x) ∧
      Continuous fun ε => (m.inverse.apply (p.nudge ε)).y := by
  simp only [Affine.apply, Point.nudge]
  constructor <;> fun_prop

namespace LatticeForm

/-- Off the diagonal, a point of the unit square is in one of its halves. -/
theorem countP_halves {f : Triangle ℚ C → Bool} {upper lower : Triangle ℚ C} {g : Point ℚ}
    {x y : ℚ} (hupper : f upper = true ↔ x < g.x ∧ y < g.y ∧ g.x + g.y < x + y + 1)
    (hlower : f lower = true ↔ g.x < x + 1 ∧ g.y < y + 1 ∧ x + y + 1 < g.x + g.y)
    (hdiagonal : g.x + g.y ≠ x + y + 1) :
    [upper, lower].countP f = strictlyWithin x (x + 1) g.x * strictlyWithin y (y + 1) g.y := by
  rw [List.countP_cons, List.countP_singleton]
  by_cases hsquare : (x < g.x ∧ g.x < x + 1) ∧ y < g.y ∧ g.y < y + 1
  · obtain ⟨⟨hleft, hright⟩, htop, hbottom⟩ := hsquare
    rw [strictlyWithin_of_mem ⟨hleft, hright⟩, strictlyWithin_of_mem ⟨htop, hbottom⟩]
    rcases lt_or_gt_of_ne hdiagonal with hdiagonal | hdiagonal
    · have hnot : ¬ f lower = true := fun h => hdiagonal.not_gt (hlower.mp h).2.2
      rw [if_pos (hupper.mpr ⟨hleft, htop, hdiagonal⟩), if_neg hnot]
    · have hnot : ¬ f upper = true := fun h => hdiagonal.not_gt (hupper.mp h).2.2
      rw [if_pos (hlower.mpr ⟨hright, hbottom, hdiagonal⟩), if_neg hnot]
  · have hnotUpper : ¬ f upper = true := by
      intro h
      obtain ⟨hleft, htop, hdiagonal⟩ := hupper.mp h
      exact hsquare ⟨⟨hleft, by linarith⟩, htop, by linarith⟩
    have hnotLower : ¬ f lower = true := by
      intro h
      obtain ⟨hright, hbottom, hdiagonal⟩ := hlower.mp h
      exact hsquare ⟨⟨by linarith, hright⟩, by linarith, hbottom⟩
    rw [if_neg hnotUpper, if_neg hnotLower, add_zero]
    rcases not_and_or.mp hsquare with h | h
    · rw [strictlyWithin_of_not_mem h, zero_mul]
    · rw [strictlyWithin_of_not_mem h, mul_zero]

section Grid

variable {m : Affine ℚ} (hdet : m.determinant ≠ 0)

include hdet

theorem eventually_countP_cellTriangles {q : Cell (Vertex ℚ C)} {x y : ℚ} (hq : q.IsAt m x y)
    (hproper : ∀ s ∈ cellTriangles q, s.shape = .proper) (p : Point ℚ) :
    ∀ᶠ ε in 𝓝[>] (0 : ℚ),
      (cellTriangles q).countP (·.contains p) =
        strictlyWithin x (x + 1) (m.inverse.apply (p.nudge ε)).x *
          strictlyWithin y (y + 1) (m.inverse.apply (p.nudge ε)).y := by
  obtain ⟨hs, ht⟩ : _ ∧ _ := by simpa [cellTriangles] using hproper
  have hdiagonal : (⟨x + 1, y⟩ : Point ℚ) ≠ ⟨x, y + 1⟩ := by
    intro h
    have hx : x + 1 = x := congrArg Point.x h
    linarith
  filter_upwards [Triangle.eventually_contains_iff hs p, Triangle.eventually_contains_iff ht p,
    eventually_sideOf_preimage_ne_zero hdet hdiagonal p] with ε hupper hlower hoff
  rw [hq.topLeft, hq.topRight, hq.bottomLeft, IsInside.apply_iff hdet, isInside_upper_iff]
    at hupper
  rw [hq.topRight, hq.bottomLeft, hq.bottomRight, IsInside.apply_iff hdet, isInside_lower_iff]
    at hlower
  refine countP_halves hupper hlower fun h => hoff ?_
  simp only [sideOf]
  linarith

theorem eventually_countP_grid {q : ℕ → ℕ → Cell (Vertex ℚ C)} {columns rows : ℕ}
    (hq : ∀ i < rows, ∀ j < columns, (q i j).IsAt m j i)
    (hproper : ∀ i < rows, ∀ j < columns, ∀ s ∈ cellTriangles (q i j), s.shape = .proper)
    (p : Point ℚ) :
    ∀ᶠ ε in 𝓝[>] (0 : ℚ),
      ((List.range rows).flatMap fun i => (List.range columns).flatMap fun j =>
          cellTriangles (q i j)).countP (·.contains p) =
        strictlyWithin 0 rows (m.inverse.apply (p.nudge ε)).y *
          strictlyWithin 0 columns (m.inverse.apply (p.nudge ε)).x := by
  refine eventually_countP_flatMap_range (fun i => eventually_preimage_y_ne hdet p i) ?_
  intro i hi
  have hrow : ∀ᶠ ε in 𝓝[>] (0 : ℚ),
      ((List.range columns).flatMap fun j => cellTriangles (q i j)).countP (·.contains p) =
        strictlyWithin 0 columns (m.inverse.apply (p.nudge ε)).x *
          strictlyWithin i (i + 1) (m.inverse.apply (p.nudge ε)).y := by
    refine eventually_countP_flatMap_range (fun j => eventually_preimage_x_ne hdet p j) ?_
    intro j hj
    exact eventually_countP_cellTriangles hdet (hq i hi j hj) (hproper i hi j hj) p
  filter_upwards [hrow] with ε hrow
  rw [hrow, mul_comm]

end Grid

/-! ## The grid of a stream -/

/-- Vertices that fill rows are the points of an affine grid: `e₁` leads to the next vertex of a
row, and `e₂` to the next row. An incomplete last row may follow. -/
structure FormsGrid (vertices : List (Vertex ℚ C)) (width : ℕ) (V : ℕ → ℕ → Vertex ℚ C)
    (o e₁ e₂ : Point ℚ) : Prop where
  vertex : ∀ i < vertices.length / width, ∀ j < width, vertices[i * width + j]? = some (V i j)
  point : ∀ i < vertices.length / width, ∀ j < width,
    (V i j).point = o + e₁ * (j : ℚ) + e₂ * (i : ℚ)

/-- The point divides a line between two opposite sides of a quadrilateral, and lies on no side. -/
def IsInsideQuadrilateral (p a b c d : Point ℚ) : Prop :=
  ∃ s t : ℚ, (0 < s ∧ s < 1) ∧ (0 < t ∧ t < 1) ∧
    p = (a * (1 - s) + b * s) * (1 - t) + (d * (1 - s) + c * s) * t

theorem apply_dividing (m : Affine ℚ) (s t x y : ℚ) :
    (m.apply ⟨0, 0⟩ * (1 - s) + m.apply ⟨x, 0⟩ * s) * (1 - t) +
        (m.apply ⟨0, y⟩ * (1 - s) + m.apply ⟨x, y⟩ * s) * t =
      m.apply ⟨s * x, t * y⟩ := by
  ext
  · simp only [Affine.apply, Point.add_x, Point.mul_x]
    ring
  · simp only [Affine.apply, Point.add_y, Point.mul_y]
    ring

/-- The map that takes columns and rows to the points of a grid. -/
def gridMap (o e₁ e₂ : Point ℚ) : Affine ℚ := ⟨e₁.x, e₁.y, e₂.x, e₂.y, o.x, o.y⟩

theorem gridMap_apply (o e₁ e₂ : Point ℚ) (x y : ℚ) :
    (gridMap o e₁ e₂).apply ⟨x, y⟩ = o + e₁ * x + e₂ * y := by
  ext
  · simp only [gridMap, Affine.apply, Point.add_x, Point.mul_x]
    ring
  · simp only [gridMap, Affine.apply, Point.add_y, Point.mul_y]
    ring

namespace FormsGrid

variable {vertices : List (Vertex ℚ C)} {width : ℕ} {V : ℕ → ℕ → Vertex ℚ C} {o e₁ e₂ : Point ℚ}
  (h : FormsGrid vertices width V o e₁ e₂)

include h

theorem point_eq_apply {i j : ℕ} (hi : i < vertices.length / width) (hj : j < width) :
    (V i j).point = (gridMap o e₁ e₂).apply ⟨j, i⟩ :=
  (h.point i hi j hj).trans (gridMap_apply o e₁ e₂ j i).symm

theorem isAt {i j : ℕ} (hi : i + 1 < vertices.length / width) (hj : j + 1 < width) :
    (Lattice.cellAt V i j).IsAt (gridMap o e₁ e₂) j i := by
  have hi' := (Nat.lt_succ_self i).trans hi
  have hj' := (Nat.lt_succ_self j).trans hj
  refine ⟨h.point_eq_apply hi' hj', ?_, ?_, ?_⟩
  · rw [← Nat.cast_succ]
    exact h.point_eq_apply hi' hj
  · rw [← Nat.cast_succ]
    exact h.point_eq_apply hi hj'
  · rw [← Nat.cast_succ, ← Nat.cast_succ]
    exact h.point_eq_apply hi hj

/-- The first triangle spans the unit square, so it has no area if the square has none. -/
theorem determinant_ne_zero (hwidth : 2 ≤ width) (hrows : 2 ≤ vertices.length / width)
    (hproper : ∀ s ∈ triangles width vertices, s.shape = .proper) :
    (gridMap o e₁ e₂).determinant ≠ 0 := by
  intro hdet
  let q := Lattice.cellAt V 0 0
  have hq : q.IsAt (gridMap o e₁ e₂) (0 : ℕ) (0 : ℕ) := h.isAt hrows hwidth
  let s : Triangle ℚ C := ⟨q.topLeft, q.topRight, q.bottomLeft⟩
  have hs : s ∈ triangles width vertices := by
    rw [triangles_eq_flatMap hwidth h.vertex]
    refine List.mem_flatMap.mpr ⟨0, List.mem_range.mpr (by omega), ?_⟩
    exact List.mem_flatMap.mpr ⟨0, List.mem_range.mpr (by omega), List.mem_cons_self⟩
  apply Triangle.area_ne_zero_of_shape (hproper s hs)
  rw [Triangle.area, hq.topLeft, hq.topRight, hq.bottomLeft, Affine.signedArea_apply, hdet,
    zero_mul]

theorem eventually_countP_triangles (hwidth : 2 ≤ width) (hrows : 2 ≤ vertices.length / width)
    (hproper : ∀ s ∈ triangles width vertices, s.shape = .proper) (p : Point ℚ) :
    ∀ᶠ ε in 𝓝[>] (0 : ℚ), (triangles width vertices).countP (·.contains p) =
      strictlyWithin 0 (vertices.length / width - 1 : ℕ)
          ((gridMap o e₁ e₂).inverse.apply (p.nudge ε)).y *
        strictlyWithin 0 (width - 1 : ℕ) ((gridMap o e₁ e₂).inverse.apply (p.nudge ε)).x := by
  have hdet := h.determinant_ne_zero hwidth hrows hproper
  rw [triangles_eq_flatMap hwidth h.vertex] at hproper ⊢
  refine eventually_countP_grid hdet (fun i hi j hj => h.isAt (by omega) (by omega)) ?_ p
  intro i hi j hj s hs
  apply hproper
  refine List.mem_flatMap.mpr ⟨i, List.mem_range.mpr hi, ?_⟩
  exact List.mem_flatMap.mpr ⟨j, List.mem_range.mpr hj, hs⟩

/-- Inside the outer corners of the grid, the preimage of a point is within the rows and columns. -/
theorem preimage_of_isInside (hdet : (gridMap o e₁ e₂).determinant ≠ 0) (hwidth : 2 ≤ width)
    (hrows : 2 ≤ vertices.length / width) {p : Point ℚ}
    (hp : IsInsideQuadrilateral p (V 0 0).point (V 0 (width - 1)).point
      (V (vertices.length / width - 1) (width - 1)).point
      (V (vertices.length / width - 1) 0).point) :
    let g := (gridMap o e₁ e₂).inverse.apply p
    (0 < g.x ∧ g.x < (width - 1 : ℕ)) ∧ 0 < g.y ∧ g.y < (vertices.length / width - 1 : ℕ) := by
  obtain ⟨s, t, ⟨hs0, hs1⟩, ⟨ht0, ht1⟩, rfl⟩ := hp
  have hcolumns : (0 : ℚ) < (width - 1 : ℕ) := Nat.cast_pos.mpr (by omega)
  have hlines : (0 : ℚ) < (vertices.length / width - 1 : ℕ) := Nat.cast_pos.mpr (by omega)
  rw [h.point_eq_apply (by omega) (by omega), h.point_eq_apply (by omega) (by omega),
    h.point_eq_apply (by omega) (by omega), h.point_eq_apply (by omega) (by omega), Nat.cast_zero,
    apply_dividing, Affine.inverse_apply hdet]
  refine ⟨⟨mul_pos hs0 hcolumns, ?_⟩, mul_pos ht0 hlines, ?_⟩
  · exact mul_lt_of_lt_one_left hcolumns hs1
  · exact mul_lt_of_lt_one_left hlines ht1

end FormsGrid

variable {f : VertexFormat ℚ} {t : Affine ℚ} {data : Array UInt8} {width : ℕ}
  {V : ℕ → ℕ → Vertex ℚ C} {o e₁ e₂ : Point ℚ}

/-- The triangles of an affine grid of vertices never contain a point twice, and they leave out no
point inside of the outer corners of the grid. -/
theorem countP_contains_decode [Channel C ℚ]
    (hgrid : FormsGrid (records f t data).complete width V o e₁ e₂) (hwidth : 2 ≤ width)
    (hrows : 2 ≤ (records (C := C) f t data).complete.length / width)
    (hproper : ∀ s ∈ (decode (C := C) f t width data).value, s.shape = .proper) (p : Point ℚ) :
    let triangles : List (Triangle ℚ C) := (decode f t width data).value
    let last := (records (C := C) f t data).complete.length / width - 1
    triangles.countP (·.contains p) ≤ 1 ∧
      (IsInsideQuadrilateral p (V 0 0).point (V 0 (width - 1)).point (V last (width - 1)).point
        (V last 0).point → triangles.countP (·.contains p) = 1) := by
  intro triangles last
  have hcount := hgrid.eventually_countP_triangles hwidth hrows hproper p
  constructor
  · obtain ⟨ε, hε⟩ := hcount.exists
    exact hε.trans_le (Nat.mul_le_mul (strictlyWithin_le_one _ _ _) (strictlyWithin_le_one _ _ _))
  · intro hp
    have hdet := hgrid.determinant_ne_zero hwidth hrows hproper
    obtain ⟨hx, hy⟩ := hgrid.preimage_of_isInside hdet hwidth hrows hp
    rw [← p.nudge_zero] at hx hy
    obtain ⟨hcx, hcy⟩ := continuous_preimage_nudge (gridMap o e₁ e₂) p
    -- The small step that leaves all edges does not leave the grid.
    obtain ⟨ε, hε, hx, hy⟩ := (hcount.and <|
      (eventually_strictlyWithin hcx.continuousAt hx).and <|
      eventually_strictlyWithin hcy.continuousAt hy).exists
    exact hε.trans (by rw [hx, hy])

/-- A slanted grid of three rows of three vertices, turned over on the device. Six triangles meet at
the vertex in the middle; a tenth vertex belongs to no complete row. -/
theorem countP_contains_decode_middle :
    let f : VertexFormat ℚ := ⟨.eight, .eight, ⟨0, 255⟩, ⟨0, 255⟩, [⟨0, 1⟩]⟩
    let t : Affine ℚ := ⟨1, 0, 0, -1, 0, 64⟩
    let data : Array UInt8 := #[10, 10, 0, 18, 12, 0, 26, 14, 0, 8, 16, 0, 16, 18, 0, 24, 20, 0,
      6, 22, 0, 14, 24, 0, 22, 26, 0, 4, 28, 0]
    let V (i j : ℕ) : Vertex ℚ ℚ := ⟨⟨10 + 8 * j - 2 * i, 54 - 2 * j - 6 * i⟩, [0]⟩
    let p : Point ℚ := ⟨16, 46⟩
    FormsGrid (records f t data).complete 3 V ⟨10, 54⟩ ⟨8, -2⟩ ⟨-2, -6⟩ ∧
      2 ≤ (records (C := ℚ) f t data).complete.length / 3 ∧
      (∀ s ∈ (decode (C := ℚ) f t 3 data).value, s.shape = .proper) ∧
      IsInsideQuadrilateral p (V 0 0).point (V 0 2).point (V 2 2).point (V 2 0).point ∧
      (decode (C := ℚ) f t 3 data).value.countP (·.contains p) = 1 := by
  intro f t data V p
  have hrecords : (records (C := ℚ) f t data).complete =
      (List.range 10).map fun k => V (k / 3) (k % 3) := by
    simp only [V]
    cbv
  have hcount : (records (C := ℚ) f t data).complete.length = 10 := by
    rw [hrecords, List.length_map, List.length_range]
  have hgrid : FormsGrid (records f t data).complete 3 V ⟨10, 54⟩ ⟨8, -2⟩ ⟨-2, -6⟩ := by
    constructor
    · intro i hi j hj
      rw [hcount] at hi
      rw [hrecords, List.getElem?_map, List.getElem?_range (by omega), Option.map_some,
        show (i * 3 + j) / 3 = i by omega, show (i * 3 + j) % 3 = j by omega]
    · intro i hi j hj
      ext
      · simp only [V, Point.add_x, Point.mul_x]
        ring
      · simp only [V, Point.add_y, Point.mul_y]
        ring
  have hrows : 2 ≤ (records (C := ℚ) f t data).complete.length / 3 := by
    rw [hcount]
    decide
  have hproper : ∀ s ∈ (decode (C := ℚ) f t 3 data).value, s.shape = .proper := by
    simp only [Triangle.shape_eq_proper_iff, decode, hrecords]
    decide +kernel
  have hp : IsInsideQuadrilateral p (V 0 0).point (V 0 2).point (V 2 2).point (V 2 0).point := by
    refine ⟨1 / 2, 1 / 2, by norm_num, by norm_num, ?_⟩
    ext
    · decide +kernel
    · decide +kernel
  obtain ⟨-, hcover⟩ := countP_contains_decode hgrid (by decide) hrows hproper p
  rw [hcount] at hcover
  exact ⟨hgrid, hrows, hproper, hp, hcover hp⟩

end LatticeForm

end SmoothShading
