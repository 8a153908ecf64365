import Mathlib
import SmoothShading.Proofs.Mesh.AffineImage
import SmoothShading.Proofs.Mesh.Lattice
import SmoothShading.Proofs.Stream.Records
import SmoothShading.Stream.FreeForm
import SmoothShading.Stream.LatticeForm
import SmoothShading.Stream.PatchMesh

/-!
# Streams under affine maps

The points of a stream are mapped to the device as they are read. As well could the map be applied
in the end to all that is decoded without it (`decode_apply`).

The parsers read the same samples with every map, so the records are the same up to the map. The
triangles of the records have no other points. A patch also has points that it takes from the patch
before it, where they were mapped when they were read, and the inner points that a Coons patch adds
to its boundary. So the induction along the records is over any patch before them, itself mapped
(`PatchMesh.assemble_map_apply`).
-/

namespace SmoothShading

open Bits

/-! ## What is read -/

theorem Bits.BitParser.times_map {α β : Type} (parse : BitParser α) (g : α → β) (n : ℕ) :
    BitParser.times (g <$> parse) n = Vector.map g <$> BitParser.times parse n := by
  induction n with
  | zero => simp [BitParser.times]
  | succ n ih => simp [BitParser.times, ih]

/-- Applies a map to the point of a record. -/
def FlaggedVertex.mapPoint {K C : Type} (g : Point K → Point K) (r : FlaggedVertex K C) :
    FlaggedVertex K C :=
  { r with vertex := r.vertex.mapPoint g }

/-- Applies a map to the points of a record. -/
def PatchRecord.mapPoints {K C : Type} {kind : PatchKind} (g : Point K → Point K) :
    PatchRecord K C kind → PatchRecord K C kind
  | fresh points colors => fresh (points.map g) colors
  | joined side points colors => joined side (points.map g) colors

section Reading

variable {C : Type} [Channel C ℚ] (t : Affine ℚ)

theorem Affine.apply_identity (p : Point ℚ) : identity.apply p = p := by
  obtain ⟨x, y⟩ := p
  simp [apply, identity]

theorem VertexFormat.point_eq_map (f : VertexFormat ℚ) :
    f.point t = t.apply <$> f.point .identity := by
  simp only [point, map_bind, map_pure, Affine.apply_identity]

theorem VertexFormat.vertex_eq_map (f : VertexFormat ℚ) :
    (f.vertex t : BitParser (Vertex ℚ C)) = Vertex.mapPoint t.apply <$> f.vertex .identity := by
  unfold vertex
  rw [f.point_eq_map t]
  simp only [bind_map_left, map_bind, map_pure, Vertex.mapPoint]

theorem PatchMesh.record_eq_map (f : FlaggedFormat ℚ) (kind : PatchKind) (flag : ℕ) :
    (record f t kind flag : BitParser (PatchRecord ℚ C kind)) =
      PatchRecord.mapPoints t.apply <$> record f .identity kind flag := by
  unfold record
  rw [f.point_eq_map t]
  cases Side.ofFlag? flag with
  | none =>
    simp only [BitParser.times_map, bind_map_left, map_bind, map_pure, PatchRecord.mapPoints]
  | some side =>
    simp only [BitParser.times_map, bind_map_left, map_bind, map_pure, PatchRecord.mapPoints]

end Reading

/-! ## Triangles -/

section Triangles

variable {K C : Type} (g : Point K → Point K)

theorem FreeForm.assemble_map (tail : Tail EdgeFlag) (last? : Option (Triangle K C))
    (rs : List (FlaggedVertex K C)) :
    assemble tail (last?.map (Triangle.mapPoints g)) (rs.map (FlaggedVertex.mapPoint g)) =
      (assemble tail last? rs).map (List.map (Triangle.mapPoints g)) := by
  fun_induction assemble tail last? rs with
  | case1 last? => rfl
  | case2 last? a => rfl
  | case3 last? a r => rfl
  | case4 last? a r s rest t flagWarnings ih =>
    exact congrArg (fun later => (later.map (t.mapPoints g :: ·)).after flagWarnings) ih
  | case5 v rest last t ih => exact congrArg (Reported.map (t.mapPoints g :: ·)) ih
  | case6 v rest ih => exact congrArg (Reported.after · [.missingPredecessor]) ih
  | case7 v rest last t ih => exact congrArg (Reported.map (t.mapPoints g :: ·)) ih
  | case8 v rest ih => exact congrArg (Reported.after · [.missingPredecessor]) ih
  | case9 last? v rest ih => exact congrArg (Reported.after · [.invalidFlag]) ih

theorem LatticeForm.triangles_map (verticesPerRow : ℕ) (vertices : List (Vertex K C)) :
    triangles verticesPerRow (vertices.map (Vertex.mapPoint g)) =
      (triangles verticesPerRow vertices).map (Triangle.mapPoints g) := by
  unfold triangles
  split
  · rfl
  · rw [Lattice.completeRows_map, Lattice.cells_map, List.flatMap_map, List.map_flatMap]
    rfl

end Triangles

/-! ## Patches -/

theorem PatchMesh.assemble_map_apply {C : Type} {kind : PatchKind} (t : Affine ℚ)
    (last? : Option (Patch ℚ C)) (rs : List (PatchRecord ℚ C kind)) :
    assemble (last?.map (Patch.mapPoints t.apply)) (rs.map (PatchRecord.mapPoints t.apply)) =
      (assemble last? rs).map (List.map (Patch.mapPoints t.apply)) := by
  fun_induction assemble last? rs with
  | case1 => rfl
  | case2 last? points colors rest p ih =>
    have hp : Patch.ofPoints kind (points.map t.apply) colors = p.mapPoints t.apply :=
      Patch.ofPoints_map_apply t kind points colors
    rw [List.map_cons, PatchRecord.mapPoints, assemble, hp]
    exact congrArg (Reported.map (p.mapPoints t.apply :: ·)) ih
  | case3 side points colors rest last p ih =>
    -- the side was mapped with the patch before, so only the points of the record are mapped here
    have hp : Patch.ofSide kind ((last.mapPoints t.apply).sideAt side) (points.map t.apply) colors =
        p.mapPoints t.apply := by
      rw [Patch.sideAt_mapPoints]
      exact Patch.ofSide_map_apply t kind (last.sideAt side) points colors
    rw [List.map_cons, PatchRecord.mapPoints, Option.map_some, assemble, hp]
    exact congrArg (Reported.map (p.mapPoints t.apply :: ·)) ih
  | case4 side points colors rest ih => exact congrArg (Reported.after · [.missingPredecessor]) ih

/-! ## Streams -/

section Streams

variable {C : Type} [Channel C ℚ] (t : Affine ℚ) (data : Array UInt8)

theorem FreeForm.records_eq_map (f : FlaggedFormat ℚ) :
    (records f t data : Records EdgeFlag (FlaggedVertex ℚ C)) =
      ⟨(records f .identity data).complete.map (FlaggedVertex.mapPoint t.apply),
        (records (C := C) f .identity data).tail⟩ := by
  have hbody (flag : EdgeFlag) : (FlaggedVertex.mk flag <$> f.vertex t : BitParser _) =
      FlaggedVertex.mapPoint t.apply <$>
        (FlaggedVertex.mk (C := C) flag <$> f.vertex .identity) := by
    rw [f.vertex_eq_map t, ← comp_map, ← comp_map]
    rfl
  unfold records
  rw [funext hbody]
  exact Records.read_map _ _ _ _

theorem LatticeForm.records_eq_map (f : VertexFormat ℚ) :
    (records f t data : Records Unit (Vertex ℚ C)) =
      ⟨(records f .identity data).complete.map (Vertex.mapPoint t.apply),
        (records (C := C) f .identity data).tail⟩ := by
  unfold records
  rw [f.vertex_eq_map t]
  exact Records.read_map _ _ _ _

theorem PatchMesh.records_eq_map (f : FlaggedFormat ℚ) (kind : PatchKind) :
    (records f t kind data : Records ℕ (PatchRecord ℚ C kind)) =
      ⟨(records f .identity kind data).complete.map (PatchRecord.mapPoints t.apply),
        (records (C := C) f .identity kind data).tail⟩ := by
  unfold records
  rw [funext (record_eq_map t f kind)]
  exact Records.read_map _ _ _ _

theorem FreeForm.decode_eq_map (f : FlaggedFormat ℚ) :
    (FreeForm.decode f t data : Reported (List (Triangle ℚ C))) =
      (FreeForm.decode f .identity data).map (List.map (Triangle.mapPoints t.apply)) := by
  unfold decode
  rw [records_eq_map]
  exact assemble_map t.apply _ none _

theorem LatticeForm.decode_eq_map (f : VertexFormat ℚ) (verticesPerRow : ℕ) :
    (LatticeForm.decode f t verticesPerRow data : Reported (List (Triangle ℚ C))) =
      (LatticeForm.decode f .identity verticesPerRow data).map
        (List.map (Triangle.mapPoints t.apply)) := by
  unfold decode
  rw [records_eq_map]
  exact congrArg (Reported.mk · _) (triangles_map t.apply verticesPerRow _)

theorem PatchMesh.decode_eq_map (f : FlaggedFormat ℚ) (kind : PatchKind) :
    (PatchMesh.decode f t kind data : Reported (List (Patch ℚ C))) =
      (PatchMesh.decode f .identity kind data).map (List.map (Patch.mapPoints t.apply)) := by
  have hpatches := assemble_map_apply t none (records (C := C) f .identity kind data).complete
  rw [Option.map_none] at hpatches
  unfold decode
  rw [records_eq_map]
  simp only [hpatches]
  rfl

/-- A stream is decoded with a map as it is decoded without one, up to the map of all points: of
triangles the corners, of patches the control points and the points of their surfaces. The colors
are the same, and so are the warnings. -/
theorem decode_apply :
    (∀ f : FlaggedFormat ℚ,
      (FreeForm.decode f t data : Reported (List (Triangle ℚ C))) =
        (FreeForm.decode f .identity data).map (List.map (Triangle.mapPoints t.apply))) ∧
    (∀ (f : VertexFormat ℚ) (verticesPerRow : ℕ),
      (LatticeForm.decode f t verticesPerRow data : Reported (List (Triangle ℚ C))) =
        (LatticeForm.decode f .identity verticesPerRow data).map
          (List.map (Triangle.mapPoints t.apply))) ∧
    ∀ (f : FlaggedFormat ℚ) (kind : PatchKind),
      let mapped : Reported (List (Patch ℚ C)) := PatchMesh.decode f t kind data
      let patches : Reported (List (Patch ℚ C)) := PatchMesh.decode f .identity kind data
      mapped = patches.map (List.map (Patch.mapPoints t.apply)) ∧
        ∀ u v, mapped.value.map (·.vertexAt u v) =
          patches.value.map fun p => (p.vertexAt u v).mapPoint t.apply := by
  refine ⟨FreeForm.decode_eq_map t data, LatticeForm.decode_eq_map t data, fun f kind => ?_⟩
  intro mapped patches
  have hmapped : mapped = patches.map (List.map (Patch.mapPoints t.apply)) :=
    PatchMesh.decode_eq_map t data f kind
  refine ⟨hmapped, fun u v => ?_⟩
  rw [hmapped, Reported.map, List.map_map]
  exact List.map_congr_left fun p _ => p.vertexAt_mapPoints_apply t u v

end Streams

end SmoothShading
