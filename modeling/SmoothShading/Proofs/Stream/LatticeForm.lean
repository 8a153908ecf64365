import Mathlib
import SmoothShading.Proofs.Exact
import SmoothShading.Proofs.Mesh.Lattice
import SmoothShading.Proofs.Mesh.LatticeEdges
import SmoothShading.Proofs.Stream.Records
import SmoothShading.Proofs.Stream.Samples
import SmoothShading.Stream.LatticeForm

/-!
# Decoding what was written: lattice-form meshes

A stream of vertices, each of which fills its last byte, is decoded without a warning to the
triangles of the complete rows (`LatticeForm.decode_encode_eq_corners`). The places of the corners
are those of `Lattice.corners`, which knows the numbers of rows and columns alone; a vertex is at
its place in the order of the stream.
-/

namespace SmoothShading

open Bits

namespace LatticeForm

variable {K C : Type}

/-! ## Triangles and their places -/

/-- Whether the corners of a triangle are the vertices at these places, in order. -/
def IsAt (V : Lattice.Place → Option (Vertex K C)) (s : Triangle K C) (k : Lattice.Corners) :
    Prop :=
  V k.a = some s.a ∧ V k.b = some s.b ∧ V k.c = some s.c

/-- The vertices of a list, which fill rows of a width one after another. -/
def vertexAt (width : ℕ) (vertices : List (Vertex K C)) (p : Lattice.Place) : Option (Vertex K C) :=
  vertices[p.row * width + p.column]?

section Triangles

variable {width : ℕ} {vertices : List (Vertex K C)}

theorem triangles_eq_flatMap {V : ℕ → ℕ → Vertex K C} (hwidth : 2 ≤ width)
    (h : ∀ i < vertices.length / width, ∀ j < width, vertices[i * width + j]? = some (V i j)) :
    triangles width vertices = (List.range (vertices.length / width - 1)).flatMap fun i =>
      (List.range (width - 1)).flatMap fun j => cellTriangles (Lattice.cellAt V i j) := by
  rw [triangles, if_neg hwidth.not_gt, Lattice.cells_completeRows h, List.flatMap_assoc]
  simp only [List.flatMap_map]

theorem triangles_eq_map_corners {V : ℕ → ℕ → Vertex K C} (hwidth : 2 ≤ width)
    (h : ∀ i < vertices.length / width, ∀ j < width, vertices[i * width + j]? = some (V i j)) :
    triangles width vertices = (Lattice.corners (vertices.length / width) width).map fun k =>
      ⟨V k.a.row k.a.column, V k.b.row k.b.column, V k.c.row k.c.column⟩ := by
  rw [triangles_eq_flatMap hwidth h, Lattice.corners]
  simp only [List.map_flatMap]
  rfl

theorem forall₂_isAt_triangles (hwidth : 2 ≤ width) (vertices : List (Vertex K C)) :
    List.Forall₂ (IsAt (vertexAt width vertices)) (triangles width vertices)
      (Lattice.corners (vertices.length / width) width) := by
  cases hlist : vertices with
  | nil =>
    rw [triangles, if_neg hwidth.not_gt, Lattice.completeRows, List.length_nil, Nat.zero_div]
    exact .nil
  | cons first rest =>
    rw [← hlist]
    have hvertex {i j : ℕ} (hi : i < vertices.length / width) (hj : j < width) :
        vertices[i * width + j]? = some (vertices[i * width + j]?.getD first) := by
      have hrow : (i + 1) * width ≤ vertices.length :=
        (Nat.mul_le_mul_right width hi).trans (Nat.div_mul_le_self _ _)
      rw [Nat.succ_mul] at hrow
      rw [List.getElem?_eq_getElem (by omega), Option.getD_some]
    rw [triangles_eq_map_corners hwidth fun i hi j hj => hvertex hi hj, List.forall₂_map_left_iff,
      List.forall₂_same]
    intro k hk
    have hplace {p : Lattice.Place} (hp : p ∈ k.places) :=
      hvertex (Lattice.lt_of_mem_places hk hp).1 (Lattice.lt_of_mem_places hk hp).2
    exact ⟨hplace (by simp [Lattice.Corners.places]), hplace (by simp [Lattice.Corners.places]),
      hplace (by simp [Lattice.Corners.places])⟩

end Triangles

/-! ## Writing and reading vertices -/

variable {f : VertexFormat K}

/-- The stream of some vertices, each of which fills its last byte. -/
def encode (f : VertexFormat K) (vertices : List (VertexSamples f.components)) : Array UInt8 :=
  (vertices.foldl f.writeVertex Writer.empty).bytes

theorem eight_le_length_vertexBits (s : VertexSamples f.components) :
    8 ≤ (f.vertexBits 0 s).length := by
  have hdvd := f.dvd_length_vertexBits 0 s
  have hpos := f.coordinate.pos
  refine Nat.le_of_dvd ?_ (by rwa [Nat.zero_add] at hdvd)
  simp only [VertexFormat.vertexBits, List.length_append, VertexFormat.length_pointBits]
  omega

variable [Scalar K] [Channel C K]

theorem readsRecord {start : ℕ} (hstart : 8 ∣ start) (t : Affine K)
    (s : VertexSamples f.components) :
    Records.ReadsRecord (return ()) (fun _ => f.vertex t) start (f.vertexBits 0 s)
      (f.vertexOf t s : Vertex K C) := by
  refine ⟨[], _, (), rfl, Reads.pure (), ?_⟩
  intro r hr hocc
  exact VertexFormat.reads_vertex 0 t s r (by rw [hr, List.length_nil]; omega) hocc

theorem records_encode (t : Affine K) (vertices : List (VertexSamples f.components)) :
    LatticeForm.records f t (encode f vertices) =
      ⟨vertices.map (f.vertexOf t : _ → Vertex K C), .padding⟩ := by
  have hunit (s : VertexSamples f.components) : 8 ∣ (f.vertexBits 0 s).length := by
    have hdvd := f.dvd_length_vertexBits 0 s
    rwa [Nat.zero_add] at hdvd
  have hw := Writer.Holds.empty.foldl vertices (fun s _ => hunit s)
    (fun s _ w bs hbs hw => f.holds_writeVertex hw (by omega) s) (Nat.dvd_zero 8)
  exact Records.read_of_holds vertices (fun s _ start hstart => readsRecord hstart t s)
    (fun s _ => hunit s) (fun s _ => eight_le_length_vertexBits s) hw

/-- A stream that was written vertex by vertex is decoded without a warning to the triangles of the
complete rows, two for each cell. They have no other corners than the vertices of these rows, and
each edge in the interior belongs to two of them. -/
theorem decode_encode_eq_corners (t : Affine K) {width : ℕ} (hwidth : 2 ≤ width)
    (vertices : List (VertexSamples f.components)) :
    let mesh : Reported (List (Triangle K C)) := decode f t width (encode f vertices)
    let rows := vertices.length / width
    let corners := Lattice.corners rows width
    mesh.warnings = [] ∧ mesh.value.length = 2 * (rows - 1) * (width - 1) ∧
      List.Forall₂ (IsAt (vertexAt width (vertices.map (f.vertexOf t)))) mesh.value corners ∧
      (∀ i < rows - 1, ∀ j < width - 1,
        corners[2 * (i * (width - 1) + j)]? = some ⟨⟨i, j⟩, ⟨i, j + 1⟩, ⟨i + 1, j⟩⟩ ∧
        corners[2 * (i * (width - 1) + j) + 1]? =
          some ⟨⟨i, j + 1⟩, ⟨i + 1, j⟩, ⟨i + 1, j + 1⟩⟩) ∧
      (∀ k ∈ corners, ∀ p ∈ k.places, p.row < rows ∧ p.column < width) ∧
      ∀ p q, Lattice.InnerEdge rows width p q → corners.countP (·.HasEdge p q) = 2 := by
  intro mesh rows corners
  have hmesh : mesh = ⟨triangles width (vertices.map (f.vertexOf t)), []⟩ := by
    simp only [mesh, decode, records_encode]
    rfl
  have hplaces := forall₂_isAt_triangles hwidth (vertices.map (f.vertexOf t : _ → Vertex K C))
  rw [List.length_map] at hplaces
  rw [hmesh]
  refine ⟨rfl, ?_, hplaces, ?_, ?_, ?_⟩
  · rw [hplaces.length_eq, Lattice.length_corners]
  · exact fun i hi j hj => Lattice.getElem?_corners hi hj
  · exact fun k hk p hp => Lattice.lt_of_mem_places hk hp
  · exact fun p q h => h.countP_hasEdge

/-- Three rows of two vertices of 21 bits each. A seventh vertex belongs to no complete row. -/
theorem decode_encode_eq_corners_three :
    let f : VertexFormat ℚ := ⟨.eight, ⟨5, by decide, by decide⟩, ⟨0, 255⟩, ⟨0, 255⟩, [⟨0, 31⟩]⟩
    let vertices : List (VertexSamples f.components) :=
      (List.range 7).map fun k => ⟨⟨k % 2, k / 2⟩, #v[k]⟩
    let V := vertexAt 2 (vertices.map (f.vertexOf .identity : _ → Vertex ℚ ℚ))
    let mesh := decode f .identity 2 (encode f vertices)
    2 ≤ 2 ∧ V ⟨2, 1⟩ = some ⟨⟨1, 2⟩, [5]⟩ ∧ mesh.warnings = [] ∧ mesh.value.length = 4 ∧
      List.Forall₂ (IsAt V) mesh.value (Lattice.corners 3 2) ∧
      (Lattice.corners 3 2).countP (·.HasEdge ⟨1, 0⟩ ⟨1, 1⟩) = 2 := by
  intro f vertices V mesh
  have hrows : vertices.length / 2 = 3 := by
    rw [List.length_map, List.length_range]
  obtain ⟨hwarnings, hlength, hplaces, -, -, hedge⟩ :=
    decode_encode_eq_corners (C := ℚ) .identity (le_refl 2) vertices
  rw [hrows] at hlength hplaces hedge
  have hlast : V ⟨2, 1⟩ = some ⟨⟨1, 2⟩, [5]⟩ := by
    simp only [V, vertices]
    cbv
  refine ⟨le_refl 2, hlast, hwarnings, hlength, hplaces, ?_⟩
  exact hedge ⟨1, 0⟩ ⟨1, 1⟩ (.alongRow (by decide) (by decide) (by decide))

end LatticeForm

end SmoothShading
