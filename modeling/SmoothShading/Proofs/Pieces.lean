import Mathlib

/-!
# Lists in pieces

A list may be made of pieces, each of them of the same size: the lines of a raster, the pixels of a
line, the triangles of a cell. Then the place of a piece in the list is a multiple of that size
(`piece_flatMap_range`), and an element is found behind the pieces before its own
(`getElem?_flatMap_range`). Of pieces of any size, none of them empty, there are not more than
elements of the list (`length_le_length_flatMap`).
-/

namespace SmoothShading

variable {α : Type} {f : ℕ → List α} {size : ℕ}

theorem length_flatMap_range (hf : ∀ i, (f i).length = size) (n : ℕ) :
    ((List.range n).flatMap f).length = n * size := by
  induction n with
  | zero => rw [Nat.zero_mul, List.range_zero, List.flatMap_nil, List.length_nil]
  | succ n ih =>
    rw [List.range_succ, List.flatMap_append, List.flatMap_singleton, List.length_append, ih, hf,
      Nat.succ_mul]

theorem piece_flatMap_range (hf : ∀ i, (f i).length = size) {n i : ℕ} (h : i < n) :
    (((List.range n).flatMap f).drop (i * size)).take size = f i := by
  induction n with
  | zero => omega
  | succ n ih =>
    have hlength := length_flatMap_range hf n
    rw [List.range_succ, List.flatMap_append, List.flatMap_singleton]
    by_cases hi : i < n
    · have hle : i * size + size ≤ n * size := by
        rw [← Nat.succ_mul]
        exact Nat.mul_le_mul_right size hi
      rw [List.drop_append_of_le_length (by omega),
        List.take_append_of_le_length (by rw [List.length_drop]; omega), ih hi]
    · obtain rfl : i = n := by omega
      rw [← hlength, List.drop_left, ← hf i, List.take_length]

theorem getElem?_flatMap_range (hf : ∀ i, (f i).length = size) {n i j : ℕ} (hi : i < n)
    (hj : j < size) : ((List.range n).flatMap f)[i * size + j]? = (f i)[j]? := by
  rw [← piece_flatMap_range hf hi, List.getElem?_take_of_lt hj, List.getElem?_drop]

/-- Of pieces that have at least one element each there are not more than elements. -/
theorem length_le_length_flatMap {β : Type} {pieces : α → List β} {xs : List α}
    (h : ∀ x ∈ xs, pieces x ≠ []) : xs.length ≤ (xs.flatMap pieces).length := by
  rw [List.length_flatMap, ← List.length_map fun x => (pieces x).length]
  refine List.length_le_sum_of_one_le _ fun n hn => ?_
  obtain ⟨x, hx, rfl⟩ := List.mem_map.mp hn
  exact List.length_pos_iff.mpr (h x hx)

end SmoothShading
