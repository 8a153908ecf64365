import Mathlib
import SmoothShading.Mesh.Patch.Tessellation
import SmoothShading.Proofs.Mesh.Lattice
import SmoothShading.Proofs.Mesh.LineColor
import SmoothShading.Proofs.Mesh.Side
import SmoothShading.Proofs.Mesh.Tessellation
import SmoothShading.Proofs.Mesh.Triangle

/-!
# The range of the colors of a patch

No color of a painted patch goes beyond the colors of its corners (`Patch.colorAt_mem_range`): the
colors of samples are means of those at the corners, and whatever the shape of a triangle is, its
colors are means of those of its corners. For a triangle with an area the weights of the mean are
not negative because the point lies in the triangle, and for a line because they are clamped.
-/

namespace SmoothShading

open Scalar

/-! ## Means -/

theorem mean_mem {t x y lo hi : ℚ} (h0 : 0 ≤ t) (h1 : t ≤ 1) (hx : lo ≤ x ∧ x ≤ hi)
    (hy : lo ≤ y ∧ y ≤ hi) : lo ≤ (1 - t) * x + t * y ∧ (1 - t) * x + t * y ≤ hi := by
  refine mean_mem_of_weights (sub_nonneg.mpr h1) h0 (le_refl 0) ?_ ?_ hx hy hx
  · linarith
  · ring

namespace Color

/-- A color of `n` components, each of which lies in its interval. -/
structure Within (n : ℕ) (lo hi : ℕ → ℚ) (c : Color ℚ) : Prop where
  length : c.length = n
  mem : ∀ i < n, lo i ≤ c.getD i 0 ∧ c.getD i 0 ≤ hi i

variable {n : ℕ} {lo hi : ℕ → ℚ} {c d e : Color ℚ}

namespace Within

theorem blend₂ {f : ℚ → ℚ → ℚ} (hc : Within n lo hi c) (hd : Within n lo hi d)
    (hf : ∀ {lo hi x y}, lo ≤ x ∧ x ≤ hi → lo ≤ y ∧ y ≤ hi → lo ≤ f x y ∧ f x y ≤ hi) :
    Within n lo hi (blend₂ f c d) := by
  have hlength : (Color.blend₂ f c d).length = n := by
    rw [Color.blend₂, List.length_zipWith, hc.length, hd.length, min_self]
  refine ⟨hlength, fun i hi => ?_⟩
  have hci := hc.mem i hi
  have hdi := hd.mem i hi
  rw [List.getD_eq_getElem _ _ (by rwa [hc.length])] at hci
  rw [List.getD_eq_getElem _ _ (by rwa [hd.length])] at hdi
  rw [List.getD_eq_getElem _ _ (by rwa [hlength])]
  simp only [Color.blend₂, List.getElem_zipWith]
  exact hf hci hdi

theorem blend₃ {f : ℚ → ℚ → ℚ → ℚ} (hc : Within n lo hi c) (hd : Within n lo hi d)
    (he : Within n lo hi e)
    (hf : ∀ {lo hi x y z}, lo ≤ x ∧ x ≤ hi → lo ≤ y ∧ y ≤ hi → lo ≤ z ∧ z ≤ hi →
      lo ≤ f x y z ∧ f x y z ≤ hi) :
    Within n lo hi (blend₃ f c d e) := by
  have hlength : (Color.blend₃ f c d e).length = n := by
    rw [Color.blend₃, List.length_zipWith, List.length_zip, hc.length, hd.length, he.length,
      min_self, min_self]
  refine ⟨hlength, fun i hi => ?_⟩
  have hci := hc.mem i hi
  have hdi := hd.mem i hi
  have hei := he.mem i hi
  rw [List.getD_eq_getElem _ _ (by rwa [hc.length])] at hci
  rw [List.getD_eq_getElem _ _ (by rwa [hd.length])] at hdi
  rw [List.getD_eq_getElem _ _ (by rwa [he.length])] at hei
  rw [List.getD_eq_getElem _ _ (by rwa [hlength])]
  simp only [Color.blend₃, List.getElem_zipWith, List.getElem_zip]
  exact hf hci hdi hei

end Within

end Color

/-! ## The colors of lines and triangles -/

section Shapes

variable {n : ℕ} {lo hi : ℕ → ℚ}

theorem Line.colorAt_within {l : Line ℚ ℚ} (hstart : l.start.color.Within n lo hi)
    (hstop : l.stop.color.Within n lo hi) (q : Pixel) : (l.colorAt q).Within n lo hi := by
  unfold colorAt
  split
  · exact hstart
  · obtain ⟨h0, h1⟩ := l.progress_mem q
    refine hstart.blend₂ hstop fun hx hy => ?_
    rw [mul_comm, mul_comm _ (l.progress q)]
    exact mean_mem h0 h1 hx hy

namespace Triangle

variable {t : Triangle ℚ ℚ}

/-- Every corner has a color within the range. -/
structure ColorsWithin (t : Triangle ℚ ℚ) (n : ℕ) (lo hi : ℕ → ℚ) : Prop where
  a : t.a.color.Within n lo hi
  b : t.b.color.Within n lo hi
  c : t.c.color.Within n lo hi

theorem ColorsWithin.meanColor (h : t.ColorsWithin n lo hi) : t.meanColor.Within n lo hi := by
  refine h.a.blend₃ h.b h.c fun {_ _ x y z} hx hy hz => ?_
  refine mean_mem_of_weights zero_le_one zero_le_one zero_le_one (by norm_num) ?_ hx hy hz
  ring

theorem ColorsWithin.lineColor (h : t.ColorsWithin n lo hi) {l : Line ℚ ℚ}
    (hl : t.shape = .line l) (q : Pixel) : (l.colorAt q).Within n lo hi := by
  rw [eq_between_of_shape hl]
  rcases t.ends_mem with hends | hends | hends
  · rw [hends]
    exact Line.colorAt_within h.a h.b q
  · rw [hends]
    exact Line.colorAt_within h.a h.c q
  · rw [hends]
    exact Line.colorAt_within h.b h.c q

theorem ColorsWithin.properColor (h : t.ColorsWithin n lo hi) {p : Point ℚ} (harea : t.area ≠ 0)
    (hp : t.properContains p = true) : (t.properColor p).Within n lo hi := by
  obtain ⟨ha, hb, hc⟩ := weights_nonneg_of_properContains hp
  have hsum := weights_sum harea p
  unfold Triangle.properColor
  dsimp only
  refine h.a.blend₃ h.b h.c fun {_ _ x y z} hx hy hz => ?_
  refine mean_mem_of_weights ha hb hc (by rw [hsum]; exact zero_lt_one) ?_ hx hy hz
  rw [hsum]
  ring

/-- The colors of the points of a triangle are in the range of the colors of its corners. -/
theorem ColorsWithin.colorAt (h : t.ColorsWithin n lo hi) {p : Point ℚ}
    (hp : t.contains p = true) : (t.colorAt p).Within n lo hi := by
  unfold contains at hp
  unfold Triangle.colorAt
  cases hshape : t.shape with
  | point => exact h.meanColor
  | line l => exact h.lineColor hshape p.pixel
  | proper =>
    rw [hshape] at hp
    exact h.properColor (area_ne_zero_of_shape hshape) hp

end Triangle

end Shapes

/-! ## The colors of a patch -/

namespace Patch

variable {p : Patch ℚ ℚ} {n : ℕ} {lo hi : ℕ → ℚ}

/-- Every corner of the patch has a color within the range. -/
structure ColorsWithin (p : Patch ℚ ℚ) (n : ℕ) (lo hi : ℕ → ℚ) : Prop where
  color00 : p.color00.Within n lo hi
  color01 : p.color01.Within n lo hi
  color11 : p.color11.Within n lo hi
  color10 : p.color10.Within n lo hi

theorem ColorsWithin.colorAt (h : p.ColorsWithin n lo hi) {u v : ℚ} (hu : 0 ≤ u ∧ u ≤ 1)
    (hv : 0 ≤ v ∧ v ≤ 1) : (p.colorAt u v).Within n lo hi := by
  have hlength : (p.colorAt u v).length = n := by
    rw [Patch.colorAt, List.length_map, List.length_range, h.color00.length]
  refine ⟨hlength, fun i hi => ?_⟩
  have hchannel (color : Color ℚ) :
      (color[i]?.map (Channel.widen : ℚ → ℚ)).getD 0 = color.getD i 0 := by
    rw [List.getD_eq_getElem?_getD]
    cases color[i]?
    · rfl
    · rfl
  have hcolor : (p.colorAt u v).getD i 0 =
      (1 - v) * ((1 - u) * p.color00.getD i 0 + u * p.color10.getD i 0) +
        v * ((1 - u) * p.color01.getD i 0 + u * p.color11.getD i 0) := by
    rw [List.getD_eq_getElem _ _ (by rwa [hlength]), ← hchannel, ← hchannel, ← hchannel, ← hchannel]
    simp only [Patch.colorAt, List.getElem_map, List.getElem_range]
    rfl
  rw [hcolor]
  exact mean_mem hv.1 hv.2 (mean_mem hu.1 hu.2 (h.color00.mem i hi) (h.color10.mem i hi))
    (mean_mem hu.1 hu.2 (h.color01.mem i hi) (h.color11.mem i hi))

theorem mem_parameters {level : ℕ} {x : ℚ} (h : x ∈ (parameters level : List ℚ)) :
    0 ≤ x ∧ x ≤ 1 := by
  obtain ⟨i, hi, rfl⟩ := List.mem_map.mp h
  have hle : i ≤ parts level := Nat.le_of_lt_succ (List.mem_range.mp hi)
  rw [ofNat_rat, ofNat_rat]
  exact ⟨by positivity, div_le_one_of_le₀ (Nat.cast_le.mpr hle) (Nat.cast_nonneg _)⟩

/-- What the surface has over the whole unit square, the corners of the triangles have. -/
theorem forall_mem_triangles {C : Type} [Channel C ℚ] {p : Patch ℚ C} {P : Vertex ℚ C → Prop}
    (h : ∀ u v, 0 ≤ u ∧ u ≤ 1 → 0 ≤ v ∧ v ≤ 1 → P (p.vertexAt u v)) {t : Triangle ℚ C}
    (ht : t ∈ p.triangles) : P t.a ∧ P t.b ∧ P t.c := by
  have hsamples : ∀ row ∈ p.samples, ∀ s ∈ row, P s := by
    intro row hrow s hs
    obtain ⟨v, hv, rfl⟩ := List.mem_map.mp hrow
    obtain ⟨u, hu, rfl⟩ := List.mem_map.mp hs
    exact h u v (mem_parameters hu) (mem_parameters hv)
  obtain ⟨q, hq, ht⟩ := List.mem_flatMap.mp ht
  obtain ⟨htl, htr, hbl, hbr⟩ := Lattice.forall_mem_cells hsamples hq
  rcases q.mem_triangles ht with rfl | rfl
  · exact ⟨htl, htr, hbl⟩
  · exact ⟨hbl, htr, hbr⟩

theorem ColorsWithin.of_mem_triangles (h : p.ColorsWithin n lo hi) {t : Triangle ℚ ℚ}
    (ht : t ∈ p.triangles) : t.ColorsWithin n lo hi := by
  obtain ⟨ha, hb, hc⟩ := forall_mem_triangles (P := fun s => s.color.Within n lo hi)
    (fun u v hu hv => h.colorAt hu hv) ht
  exact ⟨ha, hb, hc⟩

/-- The least value of a component at the corners. -/
def least (p : Patch ℚ ℚ) (i : ℕ) : ℚ :=
  min (min (p.color00.getD i 0) (p.color01.getD i 0))
    (min (p.color11.getD i 0) (p.color10.getD i 0))

/-- The greatest value of a component at the corners. -/
def greatest (p : Patch ℚ ℚ) (i : ℕ) : ℚ :=
  max (max (p.color00.getD i 0) (p.color01.getD i 0))
    (max (p.color11.getD i 0) (p.color10.getD i 0))

theorem colorsWithin_of_hasComponents (h : p.HasComponents n) :
    p.ColorsWithin n p.least p.greatest := by
  obtain ⟨h00, h01, h11, h10⟩ := h
  refine ⟨⟨h00, fun i _ => ?_⟩, ⟨h01, fun i _ => ?_⟩, ⟨h11, fun i _ => ?_⟩, ⟨h10, fun i _ => ?_⟩⟩
  all_goals simp [least, greatest]

/-- A painted patch has no color beyond those of its corners: at a point of a triangle that it is
painted as, each component is between the least and the greatest one of the corners. -/
theorem colorAt_mem_range (h : p.HasComponents n) {t : Triangle ℚ ℚ} (ht : t ∈ p.triangles)
    {q : Point ℚ} (hq : t.contains q = true) :
    (t.colorAt q).length = n ∧
      ∀ i < n, p.least i ≤ (t.colorAt q).getD i 0 ∧ (t.colorAt q).getD i 0 ≤ p.greatest i := by
  obtain ⟨hlength, hmem⟩ :=
    ((colorsWithin_of_hasComponents h).of_mem_triangles ht).colorAt hq
  exact ⟨hlength, hmem⟩

/-- A patch that is pressed onto a line, so that none of its triangles has an area. -/
theorem colorAt_mem_range_pressed :
    let row : Cubic ℚ := ⟨⟨0, 0⟩, ⟨8, 2⟩, ⟨16, 4⟩, ⟨24, 6⟩⟩
    let p : Patch ℚ ℚ := ⟨.tensor, ⟨row, row, row, row⟩, [0, 9], [3, 1], [6, 5], [9, 7]⟩
    let q : Point ℚ := ⟨21 / 4, 1 / 2⟩
    p.HasComponents 2 ∧ ∃ t ∈ p.triangles, t.shape ≠ .proper ∧ t.contains q = true ∧
      (t.colorAt q).length = 2 ∧
        ∀ i < 2, p.least i ≤ (t.colorAt q).getD i 0 ∧ (t.colorAt q).getD i 0 ≤ p.greatest i := by
  intro row p q
  have hcomponents : p.HasComponents 2 := ⟨rfl, rfl, rfl, rfl⟩
  have hany : (p.triangles.any fun t => !(t.coincidences == 0) && t.contains q) = true := by
    decide +kernel
  obtain ⟨t, ht, hcontains⟩ := List.any_eq_true.mp hany
  rw [Bool.and_eq_true, Bool.not_eq_true', beq_eq_false_iff_ne] at hcontains
  obtain ⟨hcoincide, hq⟩ := hcontains
  have hshape : t.shape ≠ .proper := by
    rw [ne_eq, Triangle.shape_eq_proper_iff]
    exact fun h => hcoincide h.1
  exact ⟨hcomponents, t, ht, hshape, hq, colorAt_mem_range hcomponents ht hq⟩

end Patch

end SmoothShading
