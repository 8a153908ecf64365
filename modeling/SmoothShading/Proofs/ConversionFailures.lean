import Mathlib
import SmoothShading.Proofs.Faults

/-!
# Colors that cannot be converted

The conversion of a color may fail wherever it likes. The color is black then, and nothing else
comes of it: the rasterizer is the one made by a conversion that gives black itself
(`Conversion.orBlack`), and one warning is added for each color (`Rasterizer.ofShading_orBlack`).

Warnings never decide how a computation goes on. So whatever converts colors commutes with leaving
out the warnings about them (`Reported.withoutFailures`), and their number is a sum over its parts
(`Reported.failures`). What remains is where colors are converted: once for each entry of the table
of an axis, once for each pixel that a triangle paints, and once for the background. The pixels that
a triangle paints are those of the rectangle that it contains (`Triangle.failures_eq`).
-/

namespace SmoothShading

/-! ## Leaving out warnings -/

/-- Whether a warning is about a color that was not converted. -/
def Warning.isConversion : Warning → Bool
  | colorConversion _ => true
  | _ => false

namespace Reported

variable {α β : Type}

/-- The same value without the warnings about colors that were not converted. -/
def withoutFailures (r : Reported α) : Reported α :=
  ⟨r.value, r.warnings.filter (!·.isConversion)⟩

/-- How many warnings are about colors that were not converted. -/
def failures (r : Reported α) : ℕ := r.warnings.countP (·.isConversion)

theorem withoutFailures_of_failures {r : Reported α} (h : r.failures = 0) :
    r.withoutFailures = r := by
  obtain ⟨value, warnings⟩ := r
  have hnone : ∀ w ∈ warnings, (!w.isConversion) = true := by
    intro w hw
    rw [Bool.not_eq_true', ← Bool.not_eq_true]
    exact List.countP_eq_zero.mp h w hw
  exact congrArg (Reported.mk value) (List.filter_eq_self.mpr hnone)

@[simp]
theorem failures_map (f : α → β) (r : Reported α) : (r.map f).failures = r.failures := rfl

theorem withoutFailures_bind (r : Reported α) (f : α → Reported β) :
    (r.bind f).withoutFailures = r.withoutFailures.bind fun a => (f a).withoutFailures :=
  congrArg (Reported.mk _) (List.filter_append _ _)

theorem failures_bind (r : Reported α) (f : α → Reported β) :
    (r.bind f).failures = r.failures + (f r.value).failures :=
  List.countP_append

theorem withoutFailures_after (r : Reported α) (ws : List Warning) :
    (r.after ws).withoutFailures = r.withoutFailures.after (ws.filter (!·.isConversion)) :=
  congrArg (Reported.mk _) (List.filter_append _ _)

theorem failures_after (r : Reported α) (ws : List Warning) :
    (r.after ws).failures = ws.countP (·.isConversion) + r.failures :=
  List.countP_append

theorem withoutFailures_collect (rs : List (Reported α)) :
    (collect rs).withoutFailures = collect (rs.map withoutFailures) := by
  simp only [collect, withoutFailures, List.filter_flatMap, List.map_map, List.flatMap_map]
  rfl

theorem failures_collect (rs : List (Reported α)) :
    (collect rs).failures = (rs.map failures).sum :=
  List.countP_flatMap

end Reported

/-! ## Converting colors -/

namespace Conversion

variable {C : Type} (convert : Conversion C)

/-- Whether a color cannot be converted. -/
def fails (c : Color C) : Bool := !(convert c).isOk

/-- The conversion that gives black for the colors that cannot be converted. -/
def orBlack : Conversion C := fun c =>
  match convert c with
  | .ok painted => .ok painted
  | .error _ => .ok .black

theorem paint_orBlack (c : Color C) :
    convert.orBlack.paint c = (convert.paint c).withoutFailures := by
  unfold paint orBlack
  cases convert c with
  | ok painted => rfl
  | error cause => rfl

theorem failures_paint (c : Color C) : (convert.paint c).failures = (convert.fails c).toNat := by
  unfold paint fails
  cases convert c with
  | ok painted => rfl
  | error cause => rfl

/-- One warning is added for each color of a list that cannot be converted. -/
theorem failures_collect_paint {α β : Type} (f : α → Rgb8 → β) (color : α → Color C)
    (l : List α) :
    (Reported.collect (l.map fun a => (convert.paint (color a)).map (f a))).failures =
      l.countP fun a => convert.fails (color a) := by
  rw [Reported.failures_collect, List.map_map]
  induction l with
  | nil => rfl
  | cons a l ih =>
    rw [List.map_cons, List.sum_cons, ih, List.countP_cons, add_comm]
    simp [failures_paint, Bool.toNat, Bool.cond_eq_ite]

theorem collect_paint_orBlack {α β : Type} (f : α → Rgb8 → β) (color : α → Color C)
    (l : List α) :
    Reported.collect (l.map fun a => (convert.orBlack.paint (color a)).map (f a)) =
      (Reported.collect (l.map fun a => (convert.paint (color a)).map (f a))).withoutFailures := by
  rw [Reported.withoutFailures_collect, List.map_map]
  simp only [paint_orBlack]
  rfl

end Conversion

/-! ## Decoding converts nothing -/

section Decoding

variable {K C : Type}

namespace FreeForm

theorem countP_innerWarnings (flag : EdgeFlag) :
    (innerWarnings flag).countP (·.isConversion) = 0 := by
  cases flag with
  | fresh => rfl
  | joinBC => rfl
  | joinAC => rfl
  | invalid => rfl

theorem countP_outerTail (tail : Tail EdgeFlag) :
    (outerTail tail).countP (·.isConversion) = 0 := by
  cases tail with
  | padding => rfl
  | cutHead => rfl
  | cutBody flag => rfl

theorem countP_innerTail (tail : Tail EdgeFlag) :
    (innerTail tail).countP (·.isConversion) = 0 := by
  cases tail with
  | padding => rfl
  | cutHead => rfl
  | cutBody flag =>
    unfold innerTail
    rw [List.countP_append, countP_innerWarnings]
    rfl

theorem failures_assemble (tail : Tail EdgeFlag) (last? : Option (Triangle K C))
    (rs : List (FlaggedVertex K C)) : (assemble tail last? rs).failures = 0 := by
  fun_induction assemble tail last? rs with
  | case1 last? => exact countP_outerTail tail
  | case2 last? a => exact countP_innerTail tail
  | case3 last? a r =>
    rw [Reported.failures, List.countP_append, countP_innerWarnings, countP_innerTail]
  | case4 last? a r s rest t flagWarnings ih =>
    rw [Reported.failures_after, Reported.failures_map, ih, List.countP_append,
      countP_innerWarnings, countP_innerWarnings]
  | case5 v rest last t ih | case7 v rest last t ih => exact ih
  | case6 v rest ih | case8 v rest ih | case9 last? v rest ih =>
    rw [Reported.failures_after, ih]
    rfl

end FreeForm

theorem PatchMesh.failures_assemble [Scalar K] {kind : PatchKind} (last? : Option (Patch K C))
    (rs : List (PatchRecord K C kind)) : (assemble last? rs).failures = 0 := by
  fun_induction assemble last? rs with
  | case1 => rfl
  | case2 last? points colors rest p ih => exact ih
  | case3 side points colors rest last p ih => exact ih
  | case4 side points colors rest ih =>
    rw [Reported.failures_after, ih]
    rfl

theorem countP_truncatedStream (cut : Bool) :
    (if cut then [Warning.truncatedStream] else []).countP (·.isConversion) = 0 := by
  cases cut with
  | false => rfl
  | true => rfl

theorem Mesh.failures_triangles [Scalar K] [Channel C K] {mesh : Mesh C} {n : ℕ} {t : Affine K}
    {data : Array UInt8} {r : Reported (List (Triangle K C))}
    (h : mesh.triangles n t data = .ok r) : r.failures = 0 := by
  cases mesh with
  | freeForm layout =>
    obtain ⟨format, -, h⟩ := bind_eq_ok.mp h
    rw [pure_eq_ok.mp h]
    exact FreeForm.failures_assemble _ _ _
  | lattice layout verticesPerRow =>
    obtain ⟨format, -, h⟩ := bind_eq_ok.mp h
    rw [pure_eq_ok.mp h]
    exact countP_truncatedStream _
  | patches kind layout =>
    obtain ⟨format, -, h⟩ := bind_eq_ok.mp h
    rw [pure_eq_ok.mp h, Reported.failures_map, PatchMesh.decode, Reported.failures,
      List.countP_append, countP_truncatedStream]
    exact PatchMesh.failures_assemble _ _

end Decoding

/-! ## Paints -/

section Paints

variable {K C : Type} [Scalar K] [Channel C K]

/-- How many entries of the table of an axis cannot be converted. -/
def Axis.failures (a : Axis C) (length : K) (convert : Conversion C) : ℕ :=
  (List.range ((Scalar.trunc (Scalar.round length)).toNat + 1)).countP fun entry =>
    convert.fails [a.parameterAt (Axis.shareOf length entry)]

theorem Axis.paint_orBlack (a : Axis C) (t : Affine K) (length : K) (convert : Conversion C) :
    a.paint t length convert.orBlack = (a.paint t length convert).withoutFailures := by
  have hcolors : a.colors length convert.orBlack = (a.colors length convert).withoutFailures :=
    convert.collect_paint_orBlack (fun _ c => c) _ _
  unfold paint
  rw [hcolors]
  rfl

theorem Axis.failures_paint (a : Axis C) (t : Affine K) (length : K) (convert : Conversion C) :
    (a.paint t length convert).failures = a.failures length convert :=
  convert.failures_collect_paint (fun _ c => c) _ _

/-- How many pixels a triangle paints with a color that cannot be converted. -/
def Triangle.failures (convert : Conversion C) (bounds : PixelRect) (t : Triangle K C) : ℕ :=
  bounds.pixels.countP fun q => (t.colorIn? bounds q).any convert.fails

/-- Over exact numbers these are the pixels of the rectangle that the triangle contains, and at
which its own color cannot be converted. -/
theorem Triangle.failures_eq {C : Type} [Channel C ℚ] (convert : Conversion C) (bounds : PixelRect)
    (t : Triangle ℚ C) :
    t.failures convert bounds = bounds.pixels.countP fun q =>
      t.contains q.sample && convert.fails (t.colorAt q.sample) := by
  unfold failures
  refine List.countP_congr fun q hq => ?_
  rw [colorIn?_eq, PixelRect.mem_pixels.mp hq, Bool.true_and]
  cases t.contains q.sample with
  | true => exact Iff.rfl
  | false => exact Iff.rfl

namespace Coverage

theorem ofFragments_orBlack (convert : Conversion C) (fragments : List (Fragment C)) :
    ofFragments convert.orBlack fragments = (ofFragments convert fragments).withoutFailures := by
  unfold ofFragments
  rw [convert.collect_paint_orBlack (fun f : Fragment C => (f.pixel, ·))]
  rfl

theorem failures_ofTriangles (convert : Conversion C) (bounds : PixelRect)
    (triangles : List (Triangle K C)) :
    (ofTriangles convert bounds triangles).failures =
      (triangles.map (Triangle.failures convert bounds)).sum := by
  have hcollect := convert.failures_collect_paint (fun f : Fragment C => (f.pixel, ·)) (·.color)
    (triangles.flatMap (Triangle.fragments bounds))
  rw [ofTriangles, ofFragments, Reported.failures_map, hcollect, List.countP_flatMap]
  refine congrArg List.sum (List.map_congr_left fun t _ => ?_)
  exact t.countP_fragments bounds convert.fails

end Coverage

end Paints

/-! ## Shadings -/

namespace Shading

section Background

variable {K C : Type} (s : Shading K C) (convert : Conversion C)

theorem paintBackground_orBlack :
    s.paintBackground convert.orBlack = (s.paintBackground convert).withoutFailures := by
  rw [paintBackground_eq, paintBackground_eq]
  cases s.fittingBackground with
  | none => rfl
  | some c =>
    simp only [Option.map_some, Option.toList_some, List.flatMap_singleton, convert.paint_orBlack]
    rfl

theorem failures_paintBackground :
    (s.paintBackground convert).failures = (s.fittingBackground.any convert.fails).toNat := by
  rw [paintBackground_eq]
  cases s.fittingBackground with
  | none => rfl
  | some c =>
    rw [Option.any_some, ← convert.failures_paint, Option.toList_some, List.flatMap_singleton]
    rfl

/-- How many colors of the background cannot be converted: it is one color, if it has the
components of the color space. -/
def backgroundFailures [Scalar C] : ℕ :=
  (s.fittingBackground.any s.backgroundConversion.fails).toNat

end Background

section Paint

variable {K C : Type} [Scalar K] [Channel C K] (s : Shading K C) (convert : Conversion C)
  (t : Affine K) (data : Array UInt8) (bounds : PixelRect)

theorem paint_of_axial {axis : Axis C} (h : s.geometry = .axial axis) :
    s.paint convert t data bounds =
      .ok ((axis.paint t (axis.deviceLength t) convert).map .axial) := by
  unfold paint
  rw [h]

theorem paint_of_mesh {mesh : Mesh C} (h : s.geometry = .mesh mesh) :
    s.paint convert t data bounds = (mesh.triangles s.vertexComponents t data).map fun triangles =>
      (triangles.bind (Coverage.ofTriangles convert bounds)).map .mesh := by
  unfold paint
  rw [h]
  dsimp only
  cases mesh.triangles s.vertexComponents t data with
  | error e => rfl
  | ok triangles => rfl

/-- How many colors within a shading cannot be converted. -/
def paintFailures [Scalar C] : ℕ :=
  match s.geometry with
  | .axial axis => axis.failures (axis.deviceLength t) s.conversion
  | .mesh mesh =>
    match mesh.triangles s.vertexComponents t data with
    | .ok triangles => (triangles.value.map (Triangle.failures s.conversion bounds)).sum
    | .error _ => 0

theorem paint_orBlack :
    s.paint convert.orBlack t data bounds =
      (s.paint convert t data bounds).map Reported.withoutFailures := by
  cases hgeometry : s.geometry with
  | axial axis =>
    rw [s.paint_of_axial _ t data bounds hgeometry, s.paint_of_axial _ t data bounds hgeometry,
      axis.paint_orBlack]
    rfl
  | mesh mesh =>
    rw [s.paint_of_mesh _ t data bounds hgeometry, s.paint_of_mesh _ t data bounds hgeometry]
    cases htriangles : mesh.triangles s.vertexComponents t data with
    | error e => rfl
    | ok triangles =>
      have hnone := Reported.withoutFailures_of_failures (Mesh.failures_triangles htriangles)
      have hcoverage : triangles.bind (Coverage.ofTriangles convert.orBlack bounds) =
          (triangles.bind (Coverage.ofTriangles convert bounds)).withoutFailures := by
        rw [Reported.withoutFailures_bind, hnone]
        exact congrArg triangles.bind (funext fun l => Coverage.ofFragments_orBlack convert _)
      exact congrArg (fun r : Reported Coverage => Except.ok (r.map Paint.mesh)) hcoverage

theorem failures_of_paint [Scalar C] {p : Reported (Paint K)}
    (h : s.paint s.conversion t data bounds = .ok p) :
    p.failures = s.paintFailures t data bounds := by
  unfold paintFailures
  cases hgeometry : s.geometry with
  | axial axis =>
    rw [s.paint_of_axial _ t data bounds hgeometry] at h
    cases h
    exact axis.failures_paint t _ s.conversion
  | mesh mesh =>
    obtain ⟨triangles, htriangles, rfl⟩ := (paint_mesh_eq_ok_iff hgeometry).mp h
    dsimp only
    rw [htriangles, Reported.failures_map, Reported.failures_bind,
      Mesh.failures_triangles htriangles, zero_add]
    exact Coverage.failures_ofTriangles s.conversion bounds triangles.value

end Paint

end Shading

/-! ## Rasterizers -/

namespace Rasterizer

variable {K C : Type} [Scalar K] (s : Shading K C) (t : Affine K)

theorem around_orBlack (convert : Conversion C) (p : Paint K) :
    around s convert.orBlack t p = (around s convert t p).withoutFailures := by
  unfold around
  rw [s.paintBackground_orBlack]
  rfl

theorem failures_around (convert : Conversion C) (p : Paint K) :
    (around s convert t p).failures = (s.fittingBackground.any convert.fails).toNat :=
  s.failures_paintBackground convert

variable [Channel C K] (data : Array UInt8) (bounds : PixelRect)

theorem build_orBlack (convert convertBackground : Conversion C) :
    build s convert.orBlack convertBackground.orBlack t data bounds =
      (build s convert convertBackground t data bounds).map Reported.withoutFailures := by
  unfold build
  rw [s.paint_orBlack]
  cases s.check with
  | error e => rfl
  | ok _ =>
    cases s.paint convert t data bounds with
    | error e => rfl
    | ok p =>
      have haround : around s convertBackground.orBlack t = fun p =>
          (around s convertBackground t p).withoutFailures :=
        funext (around_orBlack s t convertBackground)
      rw [haround]
      exact congrArg Except.ok (p.withoutFailures_bind (around s convertBackground t)).symm

/-- Where a color cannot be converted, a rasterizer is the one that takes black for it. Apart from
its warning nothing else comes of that, and there is one warning for each entry of the table of an
axis, for each pixel of each triangle of a mesh, and for the background. If a shading is unusable,
this is still so for its background. -/
theorem ofShading_orBlack [Scalar C] :
    build s s.conversion.orBlack s.backgroundConversion.orBlack t data bounds =
        (ofShading s t data bounds).map Reported.withoutFailures ∧
      match ofShading s t data bounds with
      | .ok r => r.failures = s.paintFailures t data bounds + s.backgroundFailures
      | .error _ =>
        let shown := ofShadingOrBackground s t data bounds
        (around s s.backgroundConversion.orBlack t .nothing).after [.constructionFailure] =
            shown.withoutFailures ∧
          shown.failures = s.backgroundFailures := by
  refine ⟨build_orBlack s t data bounds _ _, ?_⟩
  cases h : ofShading s t data bounds with
  | ok r =>
    obtain ⟨-, p, hp, rfl⟩ := build_eq_ok_iff.mp h
    exact (p.failures_bind _).trans (congrArg₂ (· + ·) (s.failures_of_paint t data bounds hp)
      (failures_around s t s.backgroundConversion p.value))
  | error e =>
    dsimp only
    rw [ofShadingOrBackground_of_error h, around_orBlack, Reported.withoutFailures_after,
      Reported.failures_after, failures_around]
    exact ⟨rfl, Nat.zero_add _⟩

/-- Two triangles over the same three pixels, and a background, in a color space that converts
nothing. -/
example :
    let mesh : Mesh ℚ := .freeForm ⟨1, 1, 8, [0, 2, 0, 2, 0, 1]⟩
    let s : Shading ℚ ℚ := ⟨.mesh mesh, ⟨1, fun _ => none⟩, none, some [1], none⟩
    let data : Array UInt8 := #[0, 0, 0, 128, 0, 64, 0, 0, 0, 128, 0, 64]
    (ofShading s .identity data ⟨0, 0, 4, 4⟩).map Reported.failures = .ok 7 := by
  cbv

end Rasterizer

end SmoothShading
