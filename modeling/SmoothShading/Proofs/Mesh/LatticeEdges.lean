import Mathlib
import SmoothShading.Proofs.Pieces

/-!
# The edges of a lattice

Which places of a lattice the corners of its triangles are at. Each cell is divided by the diagonal
from its top right to its bottom left, into an upper and a lower triangle, and the triangles follow
one another cell by cell (`Lattice.corners`).

An edge in the interior has a triangle on either side (`Lattice.InnerEdge.countP_hasEdge`): a cell
on both sides if it runs along a row or a column, and both triangles of one cell if it is a
diagonal. This counts places, so vertices that coincide are told apart.
-/

namespace SmoothShading.Lattice

/-- Where a vertex is in a lattice. -/
structure Place where
  row : ℕ
  column : ℕ
deriving DecidableEq

/-- The places of the corners of a triangle, in order. -/
structure Corners where
  a : Place
  b : Place
  c : Place
deriving DecidableEq

namespace Corners

/-- The triangle at the top left of the cell in row `i` and column `j`. -/
def upper (i j : ℕ) : Corners := ⟨⟨i, j⟩, ⟨i, j + 1⟩, ⟨i + 1, j⟩⟩

/-- The triangle at the bottom right of that cell. -/
def lower (i j : ℕ) : Corners := ⟨⟨i, j + 1⟩, ⟨i + 1, j⟩, ⟨i + 1, j + 1⟩⟩

/-- Both triangles of that cell. -/
def ofCell (i j : ℕ) : List Corners := [upper i j, lower i j]

def places (k : Corners) : List Place := [k.a, k.b, k.c]

/-- Whether an edge of the triangle joins two places. -/
def HasEdge (k : Corners) (p q : Place) : Prop := p ∈ k.places ∧ q ∈ k.places

instance (k : Corners) (p q : Place) : Decidable (k.HasEdge p q) :=
  inferInstanceAs (Decidable (_ ∧ _))

end Corners

/-- The triangles of a lattice, two for each cell, row by row. -/
def corners (rows width : ℕ) : List Corners :=
  (List.range (rows - 1)).flatMap fun i =>
    (List.range (width - 1)).flatMap (Corners.ofCell i)

/-- The edges that are not on the boundary of a lattice. -/
inductive InnerEdge (rows width : ℕ) : Place → Place → Prop
  /-- From column to column, neither in the first nor in the last row. -/
  | alongRow {i j : ℕ} : 0 < i → i + 1 < rows → j + 1 < width →
      InnerEdge rows width ⟨i, j⟩ ⟨i, j + 1⟩
  /-- From row to row, neither in the first nor in the last column. -/
  | alongColumn {i j : ℕ} : i + 1 < rows → 0 < j → j + 1 < width →
      InnerEdge rows width ⟨i, j⟩ ⟨i + 1, j⟩
  /-- The diagonal of a cell. -/
  | diagonal {i j : ℕ} : i + 1 < rows → j + 1 < width →
      InnerEdge rows width ⟨i, j + 1⟩ ⟨i + 1, j⟩

variable {rows width : ℕ}

/-! ## The list of triangles -/

theorem Corners.length_ofCell (i j : ℕ) : (ofCell i j).length = 2 := rfl

theorem Corners.mem_ofCell {k : Corners} {i j : ℕ} :
    k ∈ ofCell i j ↔ k = upper i j ∨ k = lower i j := by
  rw [ofCell, List.mem_cons, List.mem_singleton]

theorem Corners.upper_ne_lower (i j i' j' : ℕ) : upper i j ≠ lower i' j' := by
  intro h
  have ha : i = i' := congrArg (·.a.row) h
  have hb : i = i' + 1 := congrArg (·.b.row) h
  omega

/-- The corners of a triangle tell the row and the column of its cell. -/
theorem Corners.cell_of_mem_ofCell {k : Corners} {i j : ℕ} (hk : k ∈ ofCell i j) :
    k.a.row = i ∧ k.b.column + k.c.column = 2 * j + 1 := by
  rcases mem_ofCell.mp hk with rfl | rfl
  · exact ⟨rfl, by simp only [upper]; omega⟩
  · exact ⟨rfl, by simp only [lower]; omega⟩

theorem mem_corners {k : Corners} :
    k ∈ corners rows width ↔
      ∃ i j, (i + 1 < rows ∧ j + 1 < width) ∧ (k = .upper i j ∨ k = .lower i j) := by
  simp only [corners, List.mem_flatMap, List.mem_range, Corners.mem_ofCell]
  constructor
  · rintro ⟨i, hi, j, hj, hk⟩
    exact ⟨i, j, ⟨by omega, by omega⟩, hk⟩
  · rintro ⟨i, j, ⟨hi, hj⟩, hk⟩
    exact ⟨i, by omega, j, by omega, hk⟩

theorem length_cornersOfRow (width i : ℕ) :
    ((List.range (width - 1)).flatMap (Corners.ofCell i)).length = (width - 1) * 2 :=
  length_flatMap_range (Corners.length_ofCell i) _

theorem length_corners (rows width : ℕ) :
    (corners rows width).length = 2 * (rows - 1) * (width - 1) := by
  rw [corners, length_flatMap_range (length_cornersOfRow width)]
  ring

/-- The triangles of a cell stand behind those of the cells before it. -/
theorem getElem?_corners {i j : ℕ} (hi : i < rows - 1) (hj : j < width - 1) :
    (corners rows width)[2 * (i * (width - 1) + j)]? = some (.upper i j) ∧
      (corners rows width)[2 * (i * (width - 1) + j) + 1]? = some (.lower i j) := by
  have hindex (s : ℕ) (hs : s < 2) :
      (corners rows width)[2 * (i * (width - 1) + j) + s]? =
        (Corners.ofCell i j)[s]? := by
    rw [show 2 * (i * (width - 1) + j) + s = i * ((width - 1) * 2) + (j * 2 + s) by ring, corners,
      getElem?_flatMap_range (length_cornersOfRow width) hi (by omega),
      getElem?_flatMap_range (Corners.length_ofCell i) hj hs]
  exact ⟨hindex 0 (by decide), hindex 1 (by decide)⟩

theorem nodup_corners (rows width : ℕ) : (corners rows width).Nodup := by
  refine List.nodup_flatMap.mpr ⟨fun i _ => List.nodup_flatMap.mpr ⟨fun j _ => ?_, ?_⟩, ?_⟩
  · simp [Corners.ofCell, Corners.upper_ne_lower]
  · refine List.nodup_range.imp fun {j j'} hne => List.disjoint_left.mpr fun k hk hk' => hne ?_
    have hj := (Corners.cell_of_mem_ofCell hk).2
    have hj' := (Corners.cell_of_mem_ofCell hk').2
    omega
  · refine List.nodup_range.imp fun {i i'} hne => List.disjoint_left.mpr fun k hk hk' => hne ?_
    obtain ⟨j, -, hk⟩ := List.mem_flatMap.mp hk
    obtain ⟨j', -, hk'⟩ := List.mem_flatMap.mp hk'
    exact (Corners.cell_of_mem_ofCell hk).1.symm.trans (Corners.cell_of_mem_ofCell hk').1

/-- No corner is outside of the rows and columns. -/
theorem lt_of_mem_places {k : Corners} (hk : k ∈ corners rows width) {p : Place}
    (hp : p ∈ k.places) : p.row < rows ∧ p.column < width := by
  obtain ⟨i, j, ⟨hi, hj⟩, rfl | rfl⟩ := mem_corners.mp hk
  · simp only [Corners.places, Corners.upper, List.mem_cons, List.not_mem_nil, or_false] at hp
    rcases hp with rfl | rfl | rfl <;> dsimp only <;> omega
  · simp only [Corners.places, Corners.lower, List.mem_cons, List.not_mem_nil, or_false] at hp
    rcases hp with rfl | rfl | rfl <;> dsimp only <;> omega

/-! ## The triangles at an edge -/

namespace InnerEdge

variable {p q : Place}

/-- An inner edge is an edge of one upper and of one lower triangle. -/
theorem exists_hasEdge_iff (h : InnerEdge rows width p q) : ∃ i j i' j',
    ((i + 1 < rows ∧ j + 1 < width) ∧ ∀ m n, (Corners.upper m n).HasEdge p q ↔ m = i ∧ n = j) ∧
      (i' + 1 < rows ∧ j' + 1 < width) ∧
        ∀ m n, (Corners.lower m n).HasEdge p q ↔ m = i' ∧ n = j' := by
  simp only [Corners.HasEdge, Corners.places, Corners.upper, Corners.lower, List.mem_cons,
    List.not_mem_nil, or_false]
  cases h with
  | @alongRow i j hi hrow hj =>
    refine ⟨i, j, i - 1, j, ⟨⟨hrow, hj⟩, fun m n => ?_⟩, ⟨by omega, hj⟩, fun m n => ?_⟩
    · simp only [Place.mk.injEq]
      omega
    · simp only [Place.mk.injEq]
      omega
  | @alongColumn i j hi hj hcolumn =>
    refine ⟨i, j, i, j - 1, ⟨⟨hi, hcolumn⟩, fun m n => ?_⟩, ⟨hi, by omega⟩, fun m n => ?_⟩
    · simp only [Place.mk.injEq]
      omega
    · simp only [Place.mk.injEq]
      omega
  | @diagonal i j hi hj =>
    refine ⟨i, j, i, j, ⟨⟨hi, hj⟩, fun m n => ?_⟩, ⟨hi, hj⟩, fun m n => ?_⟩
    · simp only [Place.mk.injEq]
      omega
    · simp only [Place.mk.injEq]
      omega

theorem countP_hasEdge (h : InnerEdge rows width p q) :
    (corners rows width).countP (·.HasEdge p q) = 2 := by
  obtain ⟨i, j, i', j', ⟨hupper, hij⟩, hlower, hij'⟩ := h.exists_hasEdge_iff
  have hperm : ((corners rows width).filter (·.HasEdge p q)).Perm
      [.upper i j, .lower i' j'] := by
    refine (List.perm_ext_iff_of_nodup ((nodup_corners rows width).filter _) ?_).mpr fun k => ?_
    · simp [Corners.upper_ne_lower]
    · rw [List.mem_filter, decide_eq_true_eq, mem_corners, List.mem_cons, List.mem_singleton]
      constructor
      · rintro ⟨⟨m, n, -, rfl | rfl⟩, hedge⟩
        · obtain ⟨rfl, rfl⟩ := (hij m n).mp hedge
          exact .inl rfl
        · obtain ⟨rfl, rfl⟩ := (hij' m n).mp hedge
          exact .inr rfl
      · rintro (rfl | rfl)
        · exact ⟨⟨i, j, hupper, .inl rfl⟩, (hij i j).mpr ⟨rfl, rfl⟩⟩
        · exact ⟨⟨i', j', hlower, .inr rfl⟩, (hij' i' j').mpr ⟨rfl, rfl⟩⟩
  rw [List.countP_eq_length_filter, hperm.length_eq]
  rfl

end InnerEdge

end SmoothShading.Lattice
