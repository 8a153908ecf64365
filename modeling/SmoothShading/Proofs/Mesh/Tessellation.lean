import Mathlib
import SmoothShading.Mesh.Patch.Tessellation
import SmoothShading.Proofs.Extended
import SmoothShading.Proofs.Lawful
import SmoothShading.Proofs.Mesh.Lattice
import SmoothShading.Proofs.Pieces

/-!
# What a tessellation leaves out

A cell of samples can be divided into two triangles, and where samples coincide one of them is left
out. Whatever the patch is, nothing with an area is lost by that, and no cell is left without a
triangle (`Patch.triangles_keep_proper`).

A triangle is left out for two of its own corners that coincide, and such a triangle is never a
proper one. Only the pairs of corners are compared the other way round, so of the numbers no more is
asked than that a difference is as large either way (`LawfulDifference`). In particular it does not
matter that coinciding is not transitive.
-/

namespace SmoothShading

open Scalar

variable {K C : Type} [Scalar K]

/-! ## Triangles with an area -/

namespace Triangle

/-- Whether the triangle has an area. -/
def isProper (t : Triangle K C) : Bool :=
  match t.shape with
  | .proper => true
  | _ => false

theorem isProper_iff {t : Triangle K C} : t.isProper = true ↔ t.shape = .proper := by
  unfold isProper
  cases t.shape with
  | point => exact iff_of_false Bool.false_ne_true nofun
  | line l => exact iff_of_false Bool.false_ne_true nofun
  | proper => exact iff_of_true rfl rfl

theorem coincidences_eq_zero_of_isProper {t : Triangle K C} (h : t.isProper = true) :
    t.coincidences = 0 := by
  have hshape := isProper_iff.mp h
  unfold shape at hshape
  split at hshape
  · cases hshape
  · split at hshape
    · next h0 => exact h0.1
    · cases hshape

/-- No two corners of a proper triangle coincide. -/
theorem not_coincide_of_isProper {t : Triangle K C} (h : t.isProper = true) :
    coincide t.a.point t.b.point = false ∧ coincide t.a.point t.c.point = false ∧
      coincide t.b.point t.c.point = false := by
  have hzero := coincidences_eq_zero_of_isProper h
  unfold coincidences at hzero
  simp only [← Bool.toNat_eq_zero]
  omega

end Triangle

/-! ## Cells -/

namespace Cell

/-- Both triangles into which a cell is divided. -/
def halves (q : Cell (Vertex K C)) : List (Triangle K C) :=
  [⟨q.topLeft, q.topRight, q.bottomLeft⟩, ⟨q.bottomLeft, q.topRight, q.bottomRight⟩]

variable (q : Cell (Vertex K C))

/-- Of the two halves of a cell one or both are kept. -/
theorem triangles_eq_or :
    (q.triangles = q.halves) ∨
      ((coincide q.bottomRight.point q.topRight.point = true ∨
          coincide q.bottomRight.point q.bottomLeft.point = true) ∧
        q.triangles = [⟨q.topLeft, q.topRight, q.bottomLeft⟩]) ∨
      (coincide q.topLeft.point q.topRight.point = true ∨
          coincide q.topLeft.point q.bottomLeft.point = true) ∧
        q.triangles = [⟨q.bottomLeft, q.topRight, q.bottomRight⟩] := by
  unfold triangles halves
  cases coincide q.topLeft.point q.topRight.point
  · cases coincide q.topLeft.point q.bottomLeft.point
    · cases coincide q.bottomRight.point q.topRight.point
      · cases coincide q.bottomRight.point q.bottomLeft.point
        · exact .inl rfl
        · exact .inr (.inl ⟨.inr rfl, rfl⟩)
      · exact .inr (.inl ⟨.inl rfl, rfl⟩)
    · exact .inr (.inr ⟨.inr rfl, rfl⟩)
  · exact .inr (.inr ⟨.inl rfl, rfl⟩)

theorem triangles_sublist_halves : q.triangles.Sublist q.halves := by
  rcases q.triangles_eq_or with h | ⟨-, h⟩ | ⟨-, h⟩
  · rw [h]
  · rw [h]
    exact List.sublist_append_left [_] [_]
  · rw [h]
    exact List.sublist_append_right [_] [_]

theorem mem_triangles {t : Triangle K C} (h : t ∈ q.triangles) :
    t = ⟨q.topLeft, q.topRight, q.bottomLeft⟩ ∨ t = ⟨q.bottomLeft, q.topRight, q.bottomRight⟩ :=
  List.mem_pair.mp (q.triangles_sublist_halves.subset h)

theorem triangles_ne_nil : q.triangles ≠ [] := by
  rcases q.triangles_eq_or with h | ⟨-, h⟩ | ⟨-, h⟩
  all_goals
    rw [h]
    exact List.cons_ne_nil _ _

/-- The half that is left out has no area. -/
theorem filter_isProper_triangles [LawfulDifference K] :
    q.triangles.filter Triangle.isProper = q.halves.filter Triangle.isProper := by
  rcases q.triangles_eq_or with h | ⟨hlower, h⟩ | ⟨hupper, h⟩
  · rw [h]
  · have hnot : ¬ Triangle.isProper ⟨q.bottomLeft, q.topRight, q.bottomRight⟩ = true := by
      intro hproper
      obtain ⟨-, hleft, hright⟩ := Triangle.not_coincide_of_isProper hproper
      rw [coincide_comm q.bottomRight.point, coincide_comm q.bottomRight.point, hleft,
        hright] at hlower
      exact hlower.elim Bool.false_ne_true Bool.false_ne_true
    rw [h, halves, List.filter_cons, List.filter_cons, List.filter_cons_of_neg hnot]
  · have hnot : ¬ Triangle.isProper ⟨q.topLeft, q.topRight, q.bottomLeft⟩ = true := by
      intro hproper
      obtain ⟨hright, hleft, -⟩ := Triangle.not_coincide_of_isProper hproper
      rw [hright, hleft] at hupper
      exact hupper.elim Bool.false_ne_true Bool.false_ne_true
    rw [h, halves, List.filter_cons_of_neg hnot]

end Cell

/-! ## Patches -/

namespace Patch

variable [Channel C K] (p : Patch K C)

/-- The sample in row `i` and column `j`. -/
def sampleAt (i j : ℕ) : Vertex K C :=
  p.vertexAt (ofNat j / ofNat (parts p.levelU)) (ofNat i / ofNat (parts p.levelV))

/-- The triangulation of all samples: both triangles of each cell, row by row. -/
def fullTriangles : List (Triangle K C) :=
  (List.range (2 ^ p.levelV)).flatMap fun i => (List.range (2 ^ p.levelU)).flatMap fun j =>
    (Lattice.cellAt p.sampleAt i j).halves

theorem parts_eq_two_pow (level : ℕ) : parts level = 2 ^ level := by
  rw [parts, Nat.one_shiftLeft]

theorem cells_samples :
    Lattice.cells p.samples =
      (List.range (2 ^ p.levelV)).flatMap fun i =>
        (List.range (2 ^ p.levelU)).map (Lattice.cellAt p.sampleAt i) := by
  have hsamples : p.samples = (List.range (parts p.levelV + 1)).map fun i =>
      (List.range (parts p.levelU + 1)).map (p.sampleAt i) := by
    unfold samples parameters
    rw [List.map_map]
    refine List.map_congr_left fun i _ => ?_
    rw [Function.comp_apply, List.map_map]
    rfl
  rw [hsamples, Lattice.cells_map_range, Nat.add_sub_cancel, Nat.add_sub_cancel,
    parts_eq_two_pow, parts_eq_two_pow]

theorem length_cells_samples :
    (Lattice.cells p.samples).length = 2 ^ (p.levelU + p.levelV) := by
  rw [cells_samples, length_flatMap_range (fun i => by rw [List.length_map, List.length_range]),
    ← pow_add, add_comm]

/-- What is made of each cell in turn is made row by row. -/
theorem flatMap_cells_samples (f : Cell (Vertex K C) → List (Triangle K C)) :
    (Lattice.cells p.samples).flatMap f =
      (List.range (2 ^ p.levelV)).flatMap fun i => (List.range (2 ^ p.levelU)).flatMap fun j =>
        f (Lattice.cellAt p.sampleAt i j) := by
  rw [cells_samples, List.flatMap_assoc]
  simp only [List.flatMap_map]

theorem length_fullTriangles : p.fullTriangles.length = 2 * 2 ^ (p.levelU + p.levelV) := by
  have hcell (i j : ℕ) : (Lattice.cellAt p.sampleAt i j).halves.length = 2 := rfl
  have hrow (i : ℕ) : ((List.range (2 ^ p.levelU)).flatMap fun j =>
      (Lattice.cellAt p.sampleAt i j).halves).length = 2 ^ p.levelU * 2 :=
    length_flatMap_range (hcell i) _
  rw [fullTriangles, length_flatMap_range hrow, pow_add]
  ring

/-- A tessellation is the triangulation of all samples, less some of its triangles. It has all the
proper triangles and, of each cell, at least one triangle. -/
theorem triangles_keep_proper [LawfulDifference K] :
    p.triangles.Sublist p.fullTriangles ∧
      p.triangles.filter Triangle.isProper = p.fullTriangles.filter Triangle.isProper ∧
      (∃ kept : ℕ → ℕ → List (Triangle K C),
        (p.triangles = (List.range (2 ^ p.levelV)).flatMap fun i =>
          (List.range (2 ^ p.levelU)).flatMap (kept i)) ∧
        ∀ i j, kept i j ≠ [] ∧ (kept i j).Sublist (Lattice.cellAt p.sampleAt i j).halves) ∧
      2 ^ (p.levelU + p.levelV) ≤ p.triangles.length ∧
      p.triangles.length ≤ 2 * 2 ^ (p.levelU + p.levelV) := by
  have hfull : p.fullTriangles = (Lattice.cells p.samples).flatMap Cell.halves :=
    (p.flatMap_cells_samples Cell.halves).symm
  have hsublist : p.triangles.Sublist p.fullTriangles := by
    rw [hfull]
    exact List.Sublist.flatMap_right _ fun q _ => q.triangles_sublist_halves
  refine ⟨hsublist, ?_, ⟨_, p.flatMap_cells_samples Cell.triangles, fun i j => ?_⟩, ?_, ?_⟩
  · rw [hfull, triangles, List.filter_flatMap, List.filter_flatMap]
    exact List.flatMap_congr fun q _ => q.filter_isProper_triangles
  · exact ⟨Cell.triangles_ne_nil _, Cell.triangles_sublist_halves _⟩
  · rw [← p.length_cells_samples]
    exact length_le_length_flatMap fun q _ => q.triangles_ne_nil
  · rw [← p.length_fullTriangles]
    exact hsublist.length_le

/-- A patch with a side that is a single point: one triangle is left out of each cell there. If an
inner control point of such a patch is infinitely far away, then so are the samples, or they are no
numbers; none of them coincide, and no triangle is left out. -/
theorem triangles_keep_proper_collapsed :
    let p : Patch ℚ ℚ := ofPoints .coons
      #v[⟨0, 0⟩, ⟨0, 30⟩, ⟨0, 60⟩, ⟨0, 90⟩, ⟨30, 90⟩, ⟨60, 90⟩, ⟨90, 90⟩, ⟨60, 60⟩, ⟨30, 30⟩,
        ⟨0, 0⟩, ⟨0, 0⟩, ⟨0, 0⟩]
      #v[[0], [1 / 4], [1 / 2], [1]]
    let finite (x y : ℚ) : Point Extended := ⟨.finite x, .finite y⟩
    let far : Patch Extended Extended := ofPoints .tensor
      #v[finite 0 0, finite 0 30, finite 0 60, finite 0 90, finite 30 90, finite 60 90,
        finite 90 90, finite 60 60, finite 30 30, finite 0 0, finite 0 0, finite 0 0,
        ⟨.finite 10, .infinite true⟩, finite 10 20, finite 30 60, finite 20 70]
      #v[[.finite 0], [.finite (1 / 4)], [.finite (1 / 2)], [.finite 1]]
    (p.triangles.length = 6 ∧ p.fullTriangles.length = 8 ∧
      p.triangles.Sublist p.fullTriangles ∧
      p.triangles.filter Triangle.isProper = p.fullTriangles.filter Triangle.isProper) ∧
    far.triangles.length = 8 ∧ far.fullTriangles.length = 8 ∧
      far.triangles.Sublist far.fullTriangles ∧
      far.triangles.filter Triangle.isProper = far.fullTriangles.filter Triangle.isProper := by
  intro p finite far
  obtain ⟨hsublist, hproper, -⟩ := p.triangles_keep_proper
  obtain ⟨hsublistFar, hproperFar, -⟩ := far.triangles_keep_proper
  exact ⟨⟨by decide +kernel, by decide +kernel, hsublist, hproper⟩,
    by decide +kernel, by decide +kernel, hsublistFar, hproperFar⟩

end Patch

end SmoothShading
