import Mathlib
import SmoothShading.Proofs.Lawful
import SmoothShading.Proofs.Mesh.Interpolation
import SmoothShading.Proofs.Mesh.Lattice
import SmoothShading.Proofs.Rasterizer
import SmoothShading.Proofs.Stream.PatchChain
import SmoothShading.Proofs.Stream.Records
import SmoothShading.Stream.FreeForm
import SmoothShading.Stream.LatticeForm

/-!
# What a layout leaves room for

Whatever a stream holds, nothing that is decoded lies outside of the decode ranges that its layout
states (`decode_within`): points are images of points of the coordinate ranges, and each component
of a color is in a range of its own.

A sample is decoded to a number of its range (`DecodeRange.spans_decode`), so all that is read is
within the ranges (`VertexFormat.Follows`). Triangles and patches are made of what was read. That a
patch takes over points and colors from the patch before it leads along the boundary of that patch
alone, where no point was added (`Patch.Keeps`), however many patches are passed.
-/

namespace SmoothShading

open Bits

/-! ## Ranges -/

namespace DecodeRange

/-- Whether a number lies between the ends, in either order. -/
def Spans (r : DecodeRange ℚ) (x : ℚ) : Prop := x ∈ Set.uIcc r.first r.last

theorem spans_decode (r : DecodeRange ℚ) (sample maxSample : ℕ) :
    r.Spans (r.decode sample maxSample) := by
  unfold decode
  split
  · exact Set.left_mem_uIcc
  · split
    · exact Set.right_mem_uIcc
    · next hlt =>
      have hshare : (sample / maxSample : ℚ) ∈ Set.Icc 0 1 :=
        ⟨by positivity, div_le_one_of_le₀ (Nat.cast_le.mpr (not_le.mp hlt).le) (Nat.cast_nonneg _)⟩
      have hmem := (convex_uIcc r.first r.last).add_smul_sub_mem Set.left_mem_uIcc
        Set.right_mem_uIcc hshare
      rwa [smul_eq_mul, div_mul_eq_mul_div] at hmem

theorem getElem?_pairs (xs : List ℚ) (i : ℕ) :
    (pairs xs)[i]? = do
      let first ← xs[2 * i]?
      let last ← xs[2 * i + 1]?
      return ⟨first, last⟩ := by
  fun_induction pairs xs generalizing i with
  | case1 first last rest ih =>
    cases i with
    | zero => rfl
    | succ i => exact ih i
  | case2 xs hshort =>
    match xs with
    | [] => rfl
    | [x] => cases i <;> rfl
    | first :: last :: rest => exact absurd rfl (hshort first last rest)

theorem length_pairs (xs : List ℚ) : (pairs xs).length = xs.length / 2 := by
  fun_induction pairs xs with
  | case1 first last rest ih =>
    rw [List.length_cons, ih, List.length_cons, List.length_cons]
    omega
  | case2 xs hshort =>
    match xs with
    | [] | [_] => simp
    | first :: last :: rest => exact absurd rfl (hshort first last rest)

end DecodeRange

/-- Rounding for storage does not lead past stored numbers. -/
theorem Channel.widen_narrow_mem_uIcc {C : Type} [Channel C ℚ] [LawfulChannel C] {a b : C} {x : ℚ}
    (h : x ∈ Set.uIcc (Channel.widen a) (Channel.widen b)) :
    (Channel.widen (Channel.narrow x : C) : ℚ) ∈ Set.uIcc (Channel.widen a) (Channel.widen b) := by
  have hmem := (LawfulChannel.widen_narrow_mono (C := C)).mapsTo_uIcc h
  simpa only [LawfulChannel.narrow_widen] using hmem

/-! ## Layouts -/

namespace StreamLayout

variable {C : Type} [Channel C ℚ]

/-- The decode ranges by number: that of x, that of y, and then those of the components. -/
def range? (layout : StreamLayout C) (i : ℕ) : Option (DecodeRange ℚ) := do
  let first ← layout.decode[2 * i]?
  let last ← layout.decode[2 * i + 1]?
  return ⟨Channel.widen first, Channel.widen last⟩

/-- A point of the device that is the image of a point within the coordinate ranges. -/
def HasPoint (layout : StreamLayout C) (t : Affine ℚ) (p : Point ℚ) : Prop :=
  ∃ x y q, layout.range? 0 = some x ∧ layout.range? 1 = some y ∧ p = t.apply q ∧
    x.Spans q.x ∧ y.Spans q.y

/-- A color of `n` components, each within its own range. -/
def HasColor (layout : StreamLayout C) (n : ℕ) (color : Color C) : Prop :=
  color.length = n ∧ ∀ i x, color[i]? = some x →
    ∃ r, layout.range? (2 + i) = some r ∧ r.Spans (Channel.widen x)

variable {layout : StreamLayout C} {n : ℕ}

theorem range?_eq (i : ℕ) :
    layout.range? i = (DecodeRange.pairs (layout.decode.map Channel.widen))[i]? := by
  rw [DecodeRange.getElem?_pairs, range?, List.getElem?_map, List.getElem?_map]
  cases layout.decode[2 * i]? with
  | none => rfl
  | some first => cases layout.decode[2 * i + 1]? <;> rfl

/-- The ranges that a layout is read by are those that it states, in this order. -/
theorem range?_of_ranges {x y : DecodeRange ℚ} {colors : List (DecodeRange ℚ)}
    (h : layout.ranges n = .ok (x, y, colors)) :
    layout.range? 0 = some x ∧ layout.range? 1 = some y ∧ colors.length = n ∧
      ∀ i r, colors[i]? = some r → layout.range? (2 + i) = some r := by
  simp only [range?_eq]
  unfold ranges at h
  split at h
  · next x0 x1 y0 y1 rest hdecode =>
    split at h
    · cases h
    · next hlength =>
      rw [hdecode]
      cases h
      refine ⟨rfl, rfl, ?_, fun i r hr => ?_⟩
      · rw [List.length_take, DecodeRange.length_pairs]
        omega
      · rw [List.getElem?_take] at hr
        split at hr
        · rw [Nat.add_comm]
          exact hr
        · cases hr
  · cases h

theorem exists_widen_of_range? {i : ℕ} {r : DecodeRange ℚ} (h : layout.range? i = some r) :
    ∃ first last : C, r = ⟨Channel.widen first, Channel.widen last⟩ := by
  simp only [range?, Option.bind_eq_bind, Option.bind_eq_some_iff] at h
  obtain ⟨first, -, last, -, h⟩ := h
  exact ⟨first, last, (Option.some.inj h).symm⟩

end StreamLayout

/-! ## What is read -/

namespace VertexFormat

variable {C : Type} [Channel C ℚ] {layout : StreamLayout C} {n : ℕ} {f : VertexFormat ℚ}

/-- A format reads by the ranges of a layout for vertices with `n` components. -/
structure Follows (f : VertexFormat ℚ) (layout : StreamLayout C) (n : ℕ) : Prop where
  x : layout.range? 0 = some f.xRange
  y : layout.range? 1 = some f.yRange
  components : f.colorRanges.length = n
  color : ∀ i r, f.colorRanges[i]? = some r → layout.range? (2 + i) = some r

theorem follows_ofLayout (h : ofLayout layout n = .ok f) : f.Follows layout n := by
  unfold ofLayout at h
  obtain ⟨coordinate, -, h⟩ := bind_eq_ok.mp h
  obtain ⟨component, -, h⟩ := bind_eq_ok.mp h
  obtain ⟨⟨x, y, colors⟩, hranges, h⟩ := bind_eq_ok.mp h
  cases h
  obtain ⟨hx, hy, hlength, hcolor⟩ := StreamLayout.range?_of_ranges hranges
  exact ⟨hx, hy, hlength, hcolor⟩

theorem follows_ofLayout_flagged {f : FlaggedFormat ℚ}
    (h : FlaggedFormat.ofLayout layout n = .ok f) : f.toVertexFormat.Follows layout n := by
  unfold FlaggedFormat.ofLayout at h
  obtain ⟨coordinate, -, h⟩ := bind_eq_ok.mp h
  obtain ⟨component, -, h⟩ := bind_eq_ok.mp h
  obtain ⟨flag, -, h⟩ := bind_eq_ok.mp h
  obtain ⟨⟨x, y, colors⟩, hranges, h⟩ := bind_eq_ok.mp h
  cases h
  obtain ⟨hx, hy, hlength, hcolor⟩ := StreamLayout.range?_of_ranges hranges
  exact ⟨hx, hy, hlength, hcolor⟩

theorem yields_number (w : Width) (range : DecodeRange ℚ) : Yields (number w range) range.Spans :=
  (Yields.trivial _).bind fun sample _ => Yields.pure (range.spans_decode sample w.maxSample)

namespace Follows

variable (hf : f.Follows layout n) (t : Affine ℚ)
include hf

theorem yields_point : Yields (f.point t) (layout.HasPoint t) :=
  (yields_number f.coordinate f.xRange).bind fun x hx =>
    (yields_number f.coordinate f.yRange).bind fun y hy =>
      Yields.pure ⟨f.xRange, f.yRange, ⟨x, y⟩, hf.x, hf.y, rfl, hx, hy⟩

variable [LawfulChannel C]

theorem yields_color : Yields (f.color : BitParser (Color C)) (layout.HasColor n) := by
  refine (Yields.mapM (R := fun r x => r.Spans (Channel.widen x)) f.colorRanges fun r hr => ?_).mono
    fun color hcolor => ⟨?_, fun i x hx => ?_⟩
  · -- the ends of the range were stored, so that rounding does not lead out of it
    obtain ⟨i, hi⟩ := List.mem_iff_getElem?.mp hr
    obtain ⟨first, last, rfl⟩ := StreamLayout.exists_widen_of_range? (hf.color i r hi)
    exact (yields_number f.component _).bind fun x hx =>
      Yields.pure (Channel.widen_narrow_mem_uIcc hx)
  · rw [← hcolor.length_eq, hf.components]
  · obtain ⟨hi, rfl⟩ := List.getElem?_eq_some_iff.mp hx
    have hi' : i < f.colorRanges.length := hcolor.length_eq ▸ hi
    exact ⟨_, hf.color i _ (List.getElem?_eq_getElem hi'), hcolor.get hi' hi⟩

theorem yields_vertex : Yields (f.vertex t : BitParser (Vertex ℚ C)) fun v =>
    layout.HasPoint t v.point ∧ layout.HasColor n v.color :=
  (hf.yields_point t).bind fun _ hp => hf.yields_color.bind fun _ hc =>
    (Yields.trivial _).bind fun _ _ => Yields.pure ⟨hp, hc⟩

end Follows

end VertexFormat

/-! ## Triangles -/

/-- What holds of an element, and of the others as long as it holds of the one before them, holds of
all. -/
theorem forall_mem_cons_of_last {α : Type} {P : α → Prop} {a : α} {as : List α} (ha : P a)
    (has : (∀ b ∈ some a, P b) → ∀ b ∈ as, P b) : ∀ b ∈ a :: as, P b := by
  refine List.forall_mem_cons.mpr ⟨ha, has ?_⟩
  rintro b ⟨⟩
  exact ha

theorem FreeForm.forall_mem_assemble {K C : Type} {P : Vertex K C → Prop} (tail : Tail EdgeFlag)
    (last? : Option (Triangle K C)) (rs : List (FlaggedVertex K C))
    (hlast : ∀ t ∈ last?, ∀ v ∈ t.corners, P v) (hrs : ∀ r ∈ rs, P r.vertex) :
    ∀ t ∈ (assemble tail last? rs).value, ∀ v ∈ t.corners, P v := by
  fun_induction assemble tail last? rs with
  | case1 | case2 | case3 => exact fun t ht => absurd ht List.not_mem_nil
  | case4 last? a r s rest t flagWarnings ih =>
    simp only [List.forall_mem_cons] at hrs
    obtain ⟨ha, hr, hs, hrest⟩ := hrs
    exact forall_mem_cons_of_last (Triangle.forall_mem_corners.mpr ⟨ha, hr, hs⟩)
      fun ht => ih ht hrest
  | case5 v rest last t ih =>
    obtain ⟨hv, hrest⟩ := List.forall_mem_cons.mp hrs
    obtain ⟨-, hb, hc⟩ := Triangle.forall_mem_corners.mp (hlast last rfl)
    exact forall_mem_cons_of_last (Triangle.forall_mem_corners.mpr ⟨hb, hc, hv⟩)
      fun ht => ih ht hrest
  | case7 v rest last t ih =>
    obtain ⟨hv, hrest⟩ := List.forall_mem_cons.mp hrs
    obtain ⟨ha, -, hc⟩ := Triangle.forall_mem_corners.mp (hlast last rfl)
    exact forall_mem_cons_of_last (Triangle.forall_mem_corners.mpr ⟨ha, hc, hv⟩)
      fun ht => ih ht hrest
  | case6 v rest ih | case8 v rest ih | case9 last? v rest ih =>
    exact ih hlast (List.forall_mem_cons.mp hrs).2

theorem LatticeForm.forall_mem_triangles {K C : Type} {P : Vertex K C → Prop}
    (verticesPerRow : ℕ) {vertices : List (Vertex K C)} (h : ∀ v ∈ vertices, P v) :
    ∀ t ∈ triangles verticesPerRow vertices, ∀ v ∈ t.corners, P v := by
  intro t ht
  unfold triangles at ht
  split at ht
  · exact absurd ht List.not_mem_nil
  · obtain ⟨q, hq, ht⟩ := List.mem_flatMap.mp ht
    obtain ⟨htl, htr, hbl, hbr⟩ := Lattice.forall_mem_cells (Lattice.forall_mem_rows h _ _) hq
    rw [Triangle.forall_mem_corners]
    rcases List.mem_pair.mp ht with rfl | rfl
    · exact ⟨htl, htr, hbl⟩
    · exact ⟨htr, hbl, hbr⟩

/-! ## Patches -/

section Patches

variable {K C : Type}

/-- The control points on the boundary. -/
def Grid.boundary (g : Grid K) : List (Point K) :=
  [g.row0.p0, g.row0.p1, g.row0.p2, g.row0.p3, g.row1.p0, g.row1.p3, g.row2.p0, g.row2.p3,
    g.row3.p0, g.row3.p1, g.row3.p2, g.row3.p3]

theorem Grid.boundary_subset_toList (g : Grid K) : g.boundary ⊆ g.toList := by
  simp [boundary, toList]

namespace Patch

/-- The control points that a patch was given: a Coons patch has added its inner points to them. -/
def statedPoints (p : Patch K C) : List (Point K) :=
  match p.kind with
  | .coons => p.grid.boundary
  | .tensor => p.grid.toList

def cornerColors (p : Patch K C) : List (Color C) :=
  [p.color00, p.color01, p.color11, p.color10]

/-- A patch of the given kind, and what all points and all colors that it was given have. -/
structure Keeps (kind : PatchKind) (P : Point K → Prop) (Q : Color C → Prop) (p : Patch K C) :
    Prop where
  kind_eq : p.kind = kind
  points : ∀ q ∈ p.statedPoints, P q
  colors : ∀ c ∈ p.cornerColors, Q c

end Patch

/-- What all points and all colors of a record have. -/
def PatchRecord.Keeps {kind : PatchKind} (P : Point K → Prop) (Q : Color C → Prop) :
    PatchRecord K C kind → Prop
  | fresh points colors => (∀ q ∈ points, P q) ∧ ∀ c ∈ colors, Q c
  | joined _ points colors => (∀ q ∈ points, P q) ∧ ∀ c ∈ colors, Q c

namespace Patch

variable {kind : PatchKind} {P : Point K → Prop} {Q : Color C → Prop}

theorem keeps_ofPoints [Scalar K] {points : Vector (Point K) kind.points}
    {colors : Vector (Color C) 4} (hpoints : ∀ q ∈ points, P q)
    (hcolors : ∀ c ∈ colors, Q c) : (ofPoints kind points colors).Keeps kind P Q := by
  refine ⟨rfl, ?_, ?_⟩
  · cases kind
    all_goals
      simp only [statedPoints, ofPoints, gridOf, Grid.ofBoundary, Grid.ofSpiral, Grid.boundary,
        Grid.toList, List.flatMap_cons, List.flatMap_nil, List.cons_append, List.nil_append,
        List.forall_mem_cons]
      and_intros
    all_goals first
      | exact hpoints _ (Vector.getElem_mem _)
      | exact List.forall_mem_nil _
  · simp only [cornerColors, ofPoints, List.forall_mem_cons]
    exact ⟨hcolors _ (Vector.getElem_mem _), hcolors _ (Vector.getElem_mem _),
      hcolors _ (Vector.getElem_mem _), hcolors _ (Vector.getElem_mem _), List.forall_mem_nil _⟩

/-- A side lies on the boundary, where all points were given. -/
theorem Keeps.sideAt {p : Patch K C} (h : p.Keeps kind P Q) (side : Side) :
    let s := p.sideAt side
    (∀ q ∈ [s.curve.p0, s.curve.p1, s.curve.p2, s.curve.p3], P q) ∧
      ∀ c ∈ [s.startColor, s.stopColor], Q c := by
  have hboundary : ∀ q ∈ p.grid.boundary, P q := by
    intro q hq
    refine h.points q ?_
    unfold statedPoints
    cases p.kind with
    | coons => exact hq
    | tensor => exact p.grid.boundary_subset_toList hq
  have hcolors := h.colors
  simp only [Grid.boundary, cornerColors, List.forall_mem_cons] at hboundary hcolors
  cases side
  all_goals
    simp only [Patch.sideAt, Grid.column0, Grid.column3, Cubic.reverse, List.forall_mem_cons]
    tauto

/-- Behind a patch that keeps to what was given, the next one does. -/
theorem Keeps.behind [Scalar K] {p : Patch K C} (h : p.Keeps kind P Q)
    {r : PatchRecord K C kind} (hr : r.Keeps P Q) : (r.behind p).Keeps kind P Q := by
  cases r with
  | fresh points colors => exact keeps_ofPoints hr.1 hr.2
  | joined side points colors =>
    obtain ⟨hside, hends⟩ := h.sideAt side
    refine keeps_ofPoints (fun q hq => ?_) fun c hc => ?_
    · rcases Vector.mem_append.mp hq with hq | hq
      · exact hside q (by simpa using hq)
      · exact hr.1 q hq
    · rcases Vector.mem_append.mp hc with hc | hc
      · exact hends c (by simpa using hc)
      · exact hr.2 c hc

end Patch

theorem PatchMesh.forall_mem_assemble [Scalar K] {kind : PatchKind} {P : Point K → Prop}
    {Q : Color C → Prop} (last? : Option (Patch K C)) (rs : List (PatchRecord K C kind))
    (hlast : ∀ p ∈ last?, p.Keeps kind P Q) (hrs : ∀ r ∈ rs, r.Keeps P Q) :
    ∀ p ∈ (assemble last? rs).value, p.Keeps kind P Q := by
  fun_induction assemble last? rs with
  | case1 => exact fun p hp => absurd hp List.not_mem_nil
  | case2 last? points colors rest p ih =>
    obtain ⟨hr, hrest⟩ := List.forall_mem_cons.mp hrs
    exact forall_mem_cons_of_last (Patch.keeps_ofPoints hr.1 hr.2) fun hp => ih hp hrest
  | case3 side points colors rest last p ih =>
    obtain ⟨hr, hrest⟩ := List.forall_mem_cons.mp hrs
    exact forall_mem_cons_of_last ((hlast last rfl).behind hr) fun hp => ih hp hrest
  | case4 side points colors rest ih => exact ih hlast (List.forall_mem_cons.mp hrs).2

end Patches

/-! ## Streams -/

section Streams

variable {C : Type} [Channel C ℚ] [LawfulChannel C] {layout : StreamLayout C} {n : ℕ}

theorem VertexFormat.Follows.yields_record {f : FlaggedFormat ℚ}
    (hf : f.toVertexFormat.Follows layout n) (t : Affine ℚ) (kind : PatchKind) (flag : ℕ) :
    Yields (PatchMesh.record f t kind flag : BitParser (PatchRecord ℚ C kind))
      (PatchRecord.Keeps (layout.HasPoint t) (layout.HasColor n)) := by
  have hpoints (k : ℕ) := (hf.yields_point t).times k
  have hcolors (k : ℕ) := hf.yields_color.times k
  unfold PatchMesh.record
  cases Side.ofFlag? flag with
  | none => exact (hpoints _).bind fun _ hp => (hcolors 4).bind fun _ hc => Yields.pure ⟨hp, hc⟩
  | some side =>
    exact (hpoints _).bind fun _ hp => (hcolors 2).bind fun _ hc => Yields.pure ⟨hp, hc⟩

variable (layout n) (t : Affine ℚ) (data : Array UInt8)

/-- Whatever the bytes of a stream are, the corners of its triangles and the points that its patches
were given are images of points within the coordinate ranges that the layout states. All colors have
as many components as the layout was checked for, each of them within its own range. -/
theorem decode_within :
    (∀ f : FlaggedFormat ℚ, FlaggedFormat.ofLayout layout n = .ok f →
      ∀ s ∈ (FreeForm.decode f t data).value, ∀ v ∈ s.corners,
        layout.HasPoint t v.point ∧ layout.HasColor n v.color) ∧
    (∀ f : VertexFormat ℚ, VertexFormat.ofLayout layout n = .ok f → ∀ verticesPerRow,
      ∀ s ∈ (LatticeForm.decode f t verticesPerRow data).value, ∀ v ∈ s.corners,
        layout.HasPoint t v.point ∧ layout.HasColor n v.color) ∧
    ∀ f : FlaggedFormat ℚ, FlaggedFormat.ofLayout layout n = .ok f → ∀ kind,
      ∀ p ∈ (PatchMesh.decode f t kind data).value,
        p.kind = kind ∧ (∀ q ∈ p.statedPoints, layout.HasPoint t q) ∧
          ∀ c ∈ p.cornerColors, layout.HasColor n c := by
  refine ⟨fun f h => ?_, fun f h verticesPerRow => ?_, fun f h kind => ?_⟩
  · have hf := VertexFormat.follows_ofLayout_flagged h
    refine FreeForm.forall_mem_assemble _ none _ nofun ?_
    refine Records.forall_mem_complete (fun flag => ?_) _
    rw [map_eq_pure_bind]
    exact (hf.yields_vertex t).bind fun v hv => Yields.pure hv
  · have hf := VertexFormat.follows_ofLayout h
    refine LatticeForm.forall_mem_triangles verticesPerRow ?_
    exact Records.forall_mem_complete (fun _ => hf.yields_vertex t) _
  · have hf := VertexFormat.follows_ofLayout_flagged h
    intro p hp
    have hkeeps : p.Keeps kind (layout.HasPoint t) (layout.HasColor n) := by
      refine PatchMesh.forall_mem_assemble none _ nofun ?_ p hp
      exact Records.forall_mem_complete (fun flag => hf.yields_record t kind flag) _
    exact ⟨hkeeps.kind_eq, hkeeps.points, hkeeps.colors⟩

end Streams

/-- Ranges that run backwards, and a stream that states little: of its ten triangles nine, and one
of its two patches, are continued from the ones before them. -/
theorem decode_within_continued :
    let layout : StreamLayout ℚ := ⟨8, 8, 8, [4, 0, 0, 2, 1, 0]⟩
    let f : FlaggedFormat ℚ := ⟨⟨.eight, .eight, ⟨4, 0⟩, ⟨0, 2⟩, [⟨1, 0⟩]⟩, .eight⟩
    let t : Affine ℚ := ⟨0, 2, -1, 0, 3, 0⟩
    let data : Array UInt8 := #[0] ++ Array.replicate 47 129
    let freeForm : List (Triangle ℚ ℚ) := (FreeForm.decode f t data).value
    let lattice : List (Triangle ℚ ℚ) := (LatticeForm.decode f.toVertexFormat t 4 data).value
    let patches : List (Patch ℚ ℚ) := (PatchMesh.decode f t .coons data).value
    FlaggedFormat.ofLayout layout 1 = .ok f ∧
      VertexFormat.ofLayout layout 1 = .ok f.toVertexFormat ∧
      (freeForm.length = 10 ∧ ∀ s ∈ freeForm, ∀ v ∈ s.corners,
        layout.HasPoint t v.point ∧ layout.HasColor 1 v.color) ∧
      (lattice.length = 18 ∧ ∀ s ∈ lattice, ∀ v ∈ s.corners,
        layout.HasPoint t v.point ∧ layout.HasColor 1 v.color) ∧
      patches.length = 2 ∧ ∀ p ∈ patches, p.kind = .coons ∧
        (∀ q ∈ p.statedPoints, layout.HasPoint t q) ∧
          ∀ c ∈ p.cornerColors, layout.HasColor 1 c := by
  intro layout f t data freeForm lattice patches
  have hflagged : FlaggedFormat.ofLayout layout 1 = .ok f := rfl
  have hplain : VertexFormat.ofLayout layout 1 = .ok f.toVertexFormat := rfl
  obtain ⟨hfreeForm, hlattice, hpatches⟩ := decode_within layout 1 t data
  exact ⟨hflagged, hplain, ⟨by decide +kernel, hfreeForm f hflagged⟩,
    ⟨by decide +kernel, hlattice f.toVertexFormat hplain 4⟩,
    by decide +kernel, hpatches f hflagged .coons⟩

end SmoothShading
