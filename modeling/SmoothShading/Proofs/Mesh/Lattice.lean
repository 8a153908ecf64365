import Mathlib
import SmoothShading.Mesh.Lattice

/-!
# Lattices by row and column

The elements of a list that fills rows one after another have a row and a column, and so have the
cells of the lattice (`Lattice.cellAt`). The cells of the complete rows are those in front of the
last row and the last column (`Lattice.cells_completeRows`). A lattice may be mapped before or after
it is divided into cells (`Lattice.cells_map`).
-/

namespace SmoothShading

/-- Applies a map to all four neighbours. -/
def Cell.map {α β : Type} (f : α → β) (q : Cell α) : Cell β :=
  ⟨f q.topLeft, f q.topRight, f q.bottomLeft, f q.bottomRight⟩

namespace Lattice

variable {α : Type}

/-- The cell that has its top left corner in row `i` and column `j`. -/
def cellAt (V : ℕ → ℕ → α) (i j : ℕ) : Cell α :=
  ⟨V i j, V i (j + 1), V (i + 1) j, V (i + 1) (j + 1)⟩

theorem neighbours_map_range (f : ℕ → α) (n : ℕ) :
    neighbours ((List.range n).map f) = (List.range (n - 1)).map fun i => (f i, f (i + 1)) := by
  cases n with
  | zero => rfl
  | succ n =>
    unfold neighbours
    apply List.ext_getElem
    · simp
    · intro i h₁ h₂
      simp

theorem cellsBetween_map_range (f g : ℕ → α) (n : ℕ) :
    cellsBetween ((List.range n).map f) ((List.range n).map g) =
      (List.range (n - 1)).map fun j => ⟨f j, f (j + 1), g j, g (j + 1)⟩ := by
  rw [cellsBetween, neighbours_map_range, neighbours_map_range, List.zipWith_map,
    List.zipWith_self]

theorem cells_map_range (V : ℕ → ℕ → α) (count width : ℕ) :
    cells ((List.range count).map fun i => (List.range width).map (V i)) =
      (List.range (count - 1)).flatMap fun i => (List.range (width - 1)).map (cellAt V i) := by
  rw [cells, neighbours_map_range, List.flatMap_map]
  simp only [cellsBetween_map_range]
  rfl

theorem mem_of_mem_neighbours {xs : List α} {p : α × α} (h : p ∈ neighbours xs) :
    p.1 ∈ xs ∧ p.2 ∈ xs := by
  obtain ⟨h₁, h₂⟩ := List.of_mem_zip h
  exact ⟨h₁, List.mem_of_mem_tail h₂⟩

/-- What all elements of a lattice have, the corners of each cell have. -/
theorem forall_mem_cells {P : α → Prop} {rows : List (List α)} (h : ∀ r ∈ rows, ∀ x ∈ r, P x)
    {q : Cell α} (hq : q ∈ cells rows) :
    P q.topLeft ∧ P q.topRight ∧ P q.bottomLeft ∧ P q.bottomRight := by
  obtain ⟨⟨top, bottom⟩, hrows, hq⟩ := List.mem_flatMap.mp hq
  obtain ⟨htop, hbottom⟩ := mem_of_mem_neighbours hrows
  unfold cellsBetween at hq
  rw [← List.map_uncurry_zip_eq_zipWith] at hq
  obtain ⟨⟨t, b⟩, hpair, rfl⟩ := List.mem_map.mp hq
  obtain ⟨ht, hb⟩ := List.of_mem_zip hpair
  obtain ⟨ht₁, ht₂⟩ := mem_of_mem_neighbours ht
  obtain ⟨hb₁, hb₂⟩ := mem_of_mem_neighbours hb
  exact ⟨h _ htop _ ht₁, h _ htop _ ht₂, h _ hbottom _ hb₁, h _ hbottom _ hb₂⟩

/-- What all elements of a list have, the elements of its rows have. -/
theorem forall_mem_rows {P : α → Prop} {xs : List α} (h : ∀ x ∈ xs, P x) (width count : ℕ) :
    ∀ r ∈ rows width count xs, ∀ x ∈ r, P x := by
  induction count generalizing xs with
  | zero => exact fun r hr => absurd hr List.not_mem_nil
  | succ count ih =>
    intro r hr
    rcases List.mem_cons.mp hr with rfl | hr
    · exact fun x hx => h x (List.mem_of_mem_take hx)
    · exact ih (fun x hx => h x (List.mem_of_mem_drop hx)) r hr

section Rows

variable {V : ℕ → ℕ → α} {width : ℕ}

theorem take_eq_map_range {xs : List α} {f : ℕ → α} {n : ℕ}
    (h : ∀ j < n, xs[j]? = some (f j)) : xs.take n = (List.range n).map f := by
  apply List.ext_getElem?
  intro j
  by_cases hj : j < n
  · rw [List.getElem?_take_of_lt hj, List.getElem?_map, List.getElem?_range hj, h j hj]
    rfl
  · rw [List.getElem?_eq_none, List.getElem?_eq_none]
    · rw [List.length_map, List.length_range]
      exact not_lt.mp hj
    · exact (List.length_take_le n xs).trans (not_lt.mp hj)

theorem rows_eq_map_range {count : ℕ} {xs : List α}
    (h : ∀ i < count, ∀ j < width, xs[i * width + j]? = some (V i j)) :
    rows width count xs = (List.range count).map fun i => (List.range width).map (V i) := by
  induction count generalizing xs V with
  | zero => rfl
  | succ count ih =>
    have hfirst : xs.take width = (List.range width).map (V 0) := by
      apply take_eq_map_range
      intro j hj
      rw [← h 0 count.succ_pos j hj, Nat.zero_mul, Nat.zero_add]
    have hrest : rows width count (xs.drop width) =
        (List.range count).map fun i => (List.range width).map (V (i + 1)) := by
      apply ih
      intro i hi j hj
      rw [← h (i + 1) (Nat.succ_lt_succ hi) j hj, List.getElem?_drop]
      congr 1
      ring
    rw [rows, hfirst, hrest, List.range_succ_eq_map, List.map_cons, List.map_map]
    rfl

theorem cells_completeRows {xs : List α}
    (h : ∀ i < xs.length / width, ∀ j < width, xs[i * width + j]? = some (V i j)) :
    cells (completeRows width xs) =
      (List.range (xs.length / width - 1)).flatMap fun i =>
        (List.range (width - 1)).map (cellAt V i) := by
  rw [completeRows, rows_eq_map_range h, cells_map_range]

end Rows

/-! ## Lattices that are mapped -/

section Map

variable {β : Type} (f : α → β)

theorem rows_map (width count : ℕ) (xs : List α) :
    rows width count (xs.map f) = (rows width count xs).map (List.map f) := by
  induction count generalizing xs with
  | zero => rfl
  | succ count ih => rw [rows, rows, ← List.map_drop, ← List.map_take, ih, List.map_cons]

theorem completeRows_map (width : ℕ) (xs : List α) :
    completeRows width (xs.map f) = (completeRows width xs).map (List.map f) := by
  rw [completeRows, completeRows, List.length_map, rows_map]

theorem neighbours_map (xs : List α) :
    neighbours (xs.map f) = (neighbours xs).map (Prod.map f f) := by
  rw [neighbours, neighbours, ← List.map_tail, List.zip_map]

theorem cellsBetween_map (top bottom : List α) :
    cellsBetween (top.map f) (bottom.map f) = (cellsBetween top bottom).map (Cell.map f) := by
  rw [cellsBetween, cellsBetween, neighbours_map, neighbours_map, List.zipWith_map,
    List.map_zipWith]
  rfl

theorem cells_map (rows : List (List α)) :
    cells (rows.map (List.map f)) = (cells rows).map (Cell.map f) := by
  rw [cells, cells, neighbours_map, List.flatMap_map, List.map_flatMap]
  simp only [Prod.map_fst, Prod.map_snd, cellsBetween_map]

end Map

end Lattice

end SmoothShading
