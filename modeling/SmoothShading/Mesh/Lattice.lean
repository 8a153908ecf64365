/-!
# Lattices

Points in rows and columns. A lattice is given by its rows; four neighbours, two of one row and two
of the next, are a `Cell`, and `cells` lists them row by row.
-/

namespace SmoothShading

/-- Four neighbours of a lattice. -/
structure Cell (α : Type) where
  topLeft : α
  topRight : α
  bottomLeft : α
  bottomRight : α

namespace Lattice

variable {α : Type}

/-- Each element of a list with the one after it. -/
def neighbours (xs : List α) : List (α × α) := xs.zip xs.tail

/-- The cells between two rows, from left to right. -/
def cellsBetween (top bottom : List α) : List (Cell α) :=
  List.zipWith (fun t b => ⟨t.1, t.2, b.1, b.2⟩) (neighbours top) (neighbours bottom)

/-- The cells of a lattice, row by row. -/
def cells (rows : List (List α)) : List (Cell α) :=
  (neighbours rows).flatMap fun pair => cellsBetween pair.1 pair.2

/-- The first `count` rows of `width` elements each. -/
def rows (width : Nat) : Nat → List α → List (List α)
  | 0, _ => []
  | count + 1, xs => xs.take width :: rows width count (xs.drop width)

/-- The complete rows of `width` elements; elements of an incomplete last row are left out. -/
def completeRows (width : Nat) (xs : List α) : List (List α) := rows width (xs.length / width) xs

end Lattice

end SmoothShading
