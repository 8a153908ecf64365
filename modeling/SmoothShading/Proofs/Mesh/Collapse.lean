import Mathlib
import SmoothShading.Proofs.Mesh.Flatness
import SmoothShading.Proofs.Mesh.Triangle

/-!
# Triangles of two corners

If two corners of a triangle coincide and the third one does not, the triangle is painted as a line.
This line joins two corners that do not coincide, as long as the corners that coincide are closer to
each other than some others (`Triangle.exists_side_of_coincidences`).

They need not be. To coincide is to differ by less than the tolerance in each coordinate, which two
opposite corners of a square may do, while the ends of the line are the corners with the greatest
distance. In a triangle of the size of the tolerance these may be the two that coincide
(`Triangle.ends_eq_of_longest`, `Triangle.ends_coincide_small`). A triangle with a side as long as
the diagonal of a square of the tolerance is large enough (`Triangle.exists_longer_of_coincide`).
-/

namespace SmoothShading

open Scalar

/-- Points that coincide are closer to each other than opposite corners of a square of the
tolerance. -/
theorem distSq_lt_of_coincide {p q : Point ℚ} (h : coincide p q = true) :
    p.distSq q < 2 * tolerance ^ 2 := by
  obtain ⟨hx, hy⟩ := coincide_iff.mp h
  have hx2 : (p.x - q.x) ^ 2 < (1 / 1000) ^ 2 := sq_lt_sq' (abs_lt.mp hx).1 (abs_lt.mp hx).2
  have hy2 : (p.y - q.y) ^ 2 < (1 / 1000) ^ 2 := sq_lt_sq' (abs_lt.mp hy).1 (abs_lt.mp hy).2
  rw [distSq_rat, tolerance_rat]
  linarith

namespace Triangle

/-! ## The longest side -/

/-- The three pairs of corners. -/
def sides {K C : Type} (t : Triangle K C) : List (Vertex K C × Vertex K C) :=
  [(t.a, t.b), (t.a, t.c), (t.b, t.c)]

theorem ends_mem_sides {K C : Type} [Scalar K] (t : Triangle K C) : t.ends ∈ t.sides := by
  rcases t.ends_mem with h | h | h
  all_goals simp [h, sides]

variable {C : Type} {t : Triangle ℚ C} {s : Vertex ℚ C × Vertex ℚ C}

/-- The squared distance of two corners. -/
def lengthSq (s : Vertex ℚ C × Vertex ℚ C) : ℚ := s.1.point.distSq s.2.point

/-- Of two sides the one that is kept is not shorter. -/
theorem lengthSq_le_farther (p q : Vertex ℚ C × Vertex ℚ C) :
    let kept := if exceeds (lengthSq p) (lengthSq q) then p else q
    lengthSq p ≤ lengthSq kept ∧ lengthSq q ≤ lengthSq kept := by
  have hexceeds : exceeds (lengthSq p) (lengthSq q) = decide (lengthSq q < lengthSq p) := by
    simp [exceeds]
  rw [hexceeds]
  by_cases h : lengthSq q < lengthSq p
  · simpa [h] using h.le
  · simpa [h] using not_lt.mp h

theorem lengthSq_le_ends (hs : s ∈ t.sides) : lengthSq s ≤ lengthSq t.ends := by
  let first :=
    if exceeds (lengthSq (t.a, t.b)) (lengthSq (t.a, t.c)) then (t.a, t.b) else (t.a, t.c)
  obtain ⟨hab, hac⟩ : lengthSq (t.a, t.b) ≤ lengthSq first ∧ lengthSq (t.a, t.c) ≤ lengthSq first :=
    lengthSq_le_farther _ _
  obtain ⟨hfirst, hbc⟩ : lengthSq first ≤ lengthSq t.ends ∧ lengthSq (t.b, t.c) ≤ lengthSq t.ends :=
    lengthSq_le_farther first (t.b, t.c)
  simp only [sides, List.mem_cons, List.not_mem_nil, or_false] at hs
  rcases hs with rfl | rfl | rfl
  · exact hab.trans hfirst
  · exact hac.trans hfirst
  · exact hbc

theorem ends_eq_of_longest (hs : s ∈ t.sides)
    (hlongest : ∀ r ∈ t.sides, r ≠ s → lengthSq r < lengthSq s) : t.ends = s := by
  by_contra hne
  exact (hlongest t.ends t.ends_mem_sides hne).not_ge (lengthSq_le_ends hs)

/-- A side of the length of the diagonal is longer than any whose corners coincide. -/
theorem exists_longer_of_coincide {r : Vertex ℚ C × Vertex ℚ C} (hr : r ∈ t.sides)
    (hlength : 2 * tolerance ^ 2 ≤ lengthSq r) :
    ∀ s ∈ t.sides, coincide s.1.point s.2.point = true → ∃ r ∈ t.sides, lengthSq s < lengthSq r :=
  fun _ _ hs => ⟨r, hr, (distSq_lt_of_coincide hs).trans_le hlength⟩

/-! ## Two corners that coincide -/

theorem shape_of_coincidences_eq_one (h : t.coincidences = 1) :
    t.shape = .line (Line.between t.ends.1 t.ends.2) := by
  rw [shape, if_neg (by omega), if_neg (by omega)]

/-- If exactly one pair of corners coincides and is not the farthest one, the triangle is painted as
the line between two of its corners that do not coincide, from the color of the one to that of the
other. -/
theorem exists_side_of_coincidences (h : t.coincidences = 1)
    (hlonger : ∀ s ∈ t.sides, coincide s.1.point s.2.point = true →
      ∃ r ∈ t.sides, lengthSq s < lengthSq r) :
    ∃ s ∈ t.sides, t.shape = .line (Line.between s.1 s.2) ∧
      coincide s.1.point s.2.point = false := by
  refine ⟨t.ends, t.ends_mem_sides, shape_of_coincidences_eq_one h, ?_⟩
  by_contra hends
  obtain ⟨r, hr, hlt⟩ := hlonger t.ends t.ends_mem_sides (Bool.not_eq_false _ ▸ hends)
  exact hlt.not_ge (lengthSq_le_ends hr)

/-- No side of this triangle is as long as `exists_longer_of_coincide` asks for, and two of them are
equally long. -/
theorem exists_side_of_coincidences_tied :
    let t : Triangle ℚ ℚ := ⟨⟨⟨0, 1 / 2⟩, [0]⟩, ⟨⟨1 / 2048, 1025 / 2048⟩, [1 / 2]⟩,
      ⟨⟨17 / 16384, 8183 / 16384⟩, [1]⟩⟩
    lengthSq (t.a, t.c) = lengthSq (t.b, t.c) ∧ lengthSq (t.b, t.c) < 2 * tolerance ^ 2 ∧
      t.coincidences = 1 ∧
      (∀ s ∈ t.sides, coincide s.1.point s.2.point = true →
        ∃ r ∈ t.sides, lengthSq s < lengthSq r) ∧
      ∃ s ∈ t.sides, t.shape = .line (Line.between s.1 s.2) ∧
        coincide s.1.point s.2.point = false := by
  intro t
  have hone : t.coincidences = 1 := by decide +kernel
  have hlonger : ∀ s ∈ t.sides, coincide s.1.point s.2.point = true →
      ∃ r ∈ t.sides, lengthSq s < lengthSq r := by decide +kernel
  exact ⟨by decide +kernel, by decide +kernel, hone, hlonger,
    exists_side_of_coincidences hone hlonger⟩

/-- In a triangle of the size of the tolerance the line may join the two corners that coincide. Here
it is a single pixel, and the pixel of the third corner is lost. -/
theorem ends_coincide_small :
    let t : Triangle ℚ ℚ := ⟨⟨⟨0, 1 / 2⟩, [0]⟩, ⟨⟨1 / 1024, 513 / 1024⟩, [0]⟩,
      ⟨⟨17 / 16384, 8191 / 16384⟩, [1]⟩⟩
    t.coincidences = 1 ∧ t.shape = .line (Line.between t.a t.b) ∧
      coincide t.a.point t.b.point = true ∧
      ¬ ∃ s ∈ t.sides, t.shape = .line (Line.between s.1 s.2) ∧
        coincide s.1.point s.2.point = false := by
  intro t
  have hone : t.coincidences = 1 := by decide +kernel
  have hends : t.ends = (t.a, t.b) := by
    refine ends_eq_of_longest List.mem_cons_self fun r hr hne => ?_
    rcases List.mem_cons.mp hr with rfl | hr
    · exact absurd rfl hne
    · exact (show ∀ r ∈ [(t.a, t.c), (t.b, t.c)], lengthSq r < lengthSq (t.a, t.b) by
        decide +kernel) r hr
  have hshape : t.shape = .line (Line.between t.a t.b) := by
    rw [shape_of_coincidences_eq_one hone, hends]
  refine ⟨hone, hshape, by decide +kernel, ?_⟩
  rintro ⟨s, hs, hline, hs'⟩
  rw [hshape, Shape.line.injEq] at hline
  have hstop := congrArg (·.stop.point.y) hline
  revert hs' hstop
  exact (show ∀ s ∈ t.sides, coincide s.1.point s.2.point = false →
    Scalar.round t.b.point.y = Scalar.round s.2.point.y → False by decide +kernel) s hs

end Triangle

end SmoothShading
