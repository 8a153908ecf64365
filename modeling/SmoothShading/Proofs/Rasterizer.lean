import Mathlib
import SmoothShading.Proofs.Paint.Coverage
import SmoothShading.Rasterizer

/-!
# What a rasterizer of a mesh answers

A rasterizer prepares the colors of all pixels at once, triangle by triangle. It could as well go
through the triangles for each pixel that is asked for, and take the last one that contains it
(`Shading.renderAt`): both give the same answers (`Rasterizer.colorAt_eq_renderAt`).
-/

namespace SmoothShading

theorem bind_eq_ok {ε α β : Type} {x : Except ε α} {f : α → Except ε β} {b : β} :
    x >>= f = .ok b ↔ ∃ a, x = .ok a ∧ f a = .ok b := by
  cases x with
  | error e =>
    constructor
    · exact fun h => by cases h
    · rintro ⟨a, ha, -⟩
      cases ha
  | ok a =>
    constructor
    · exact fun h => ⟨a, rfl, h⟩
    · rintro ⟨_, ha, h⟩
      cases ha
      exact h

theorem pure_eq_ok {ε α : Type} {a b : α} : (pure a : Except ε α) = .ok b ↔ b = a :=
  ⟨fun h => by cases h; rfl, fun h => by rw [h]; rfl⟩

namespace Shading

variable {K C : Type} {s : Shading K C}

/-! ## Usable shadings -/

theorem length_background_of_check (h : s.check = .ok ()) {c : Color C}
    (hc : s.background = some c) : c.length = s.space.components := by
  unfold check at h
  split at h
  · cases h
  · next hany =>
    rw [hc, Option.any_some, bne_iff_ne, not_not] at hany
    exact hany

/-- The background of a usable shading is painted. -/
theorem value_paintBackground (h : s.check = .ok ()) (convert : Conversion C) :
    (s.paintBackground convert).value = s.background.map fun c => (convert.paint c).value := by
  unfold paintBackground
  cases hc : s.background with
  | none => rfl
  | some c =>
    simp only [length_background_of_check h hc, if_true]
    rfl

variable [Scalar K] [Channel C K]

theorem paint_mesh_eq_ok_iff {mesh : Mesh C} (hmesh : s.geometry = .mesh mesh)
    {convert : Conversion C} {t : Affine K} {data : Array UInt8} {bounds : PixelRect}
    {p : Reported (Paint K)} :
    s.paint convert t data bounds = .ok p ↔
      ∃ triangles, mesh.triangles s.vertexComponents t data = .ok triangles ∧
        p = (triangles.bind (Coverage.ofTriangles convert bounds)).map .mesh := by
  unfold paint
  rw [hmesh]
  simp only [bind_eq_ok, pure_eq_ok]

end Shading

/-- The color of a pixel, found by asking the triangles of the mesh from the last to the first. -/
def Shading.renderAt {C : Type} [Scalar C] [Channel C ℚ] (s : Shading ℚ C) (t : Affine ℚ)
    (bounds : PixelRect) (triangles : List (Triangle ℚ C)) (q : Pixel) : Option Rgb8 :=
  if (s.clip t).any (·.excludes q.sample) then none
  else
    match Coverage.topmost bounds triangles q with
    | some triangle => some (s.conversion.paint (triangle.colorAt q.sample)).value
    | none => s.background.map fun c => (s.backgroundConversion.paint c).value

namespace Rasterizer

theorem build_eq_ok_iff {K C : Type} [Scalar K] [Channel C K] {s : Shading K C}
    {convert convertBackground : Conversion C} {t : Affine K} {data : Array UInt8}
    {bounds : PixelRect} {r : Reported (Rasterizer K)} :
    build s convert convertBackground t data bounds = .ok r ↔
      s.check = .ok () ∧ ∃ p, s.paint convert t data bounds = .ok p ∧
        r = p.bind (around s convertBackground t) := by
  simp only [build, bind_eq_ok, pure_eq_ok]
  constructor
  · rintro ⟨_, hcheck, h⟩
    exact ⟨hcheck, h⟩
  · rintro ⟨hcheck, h⟩
    exact ⟨_, hcheck, h⟩

variable {C : Type} [Scalar C] [Channel C ℚ]

/-- A mesh is painted as if its triangles were asked one by one for each pixel. -/
theorem colorAt_eq_renderAt {s : Shading ℚ C} {mesh : Mesh C} {t : Affine ℚ} {data : Array UInt8}
    {bounds : PixelRect} {r : Reported (Rasterizer ℚ)} (hmesh : s.geometry = .mesh mesh)
    (h : ofShading s t data bounds = .ok r) :
    ∃ triangles, mesh.triangles s.vertexComponents t data = .ok triangles ∧
      ∀ q, r.value.colorAt q = s.renderAt t bounds triangles.value q := by
  obtain ⟨hcheck, p, hp, rfl⟩ := build_eq_ok_iff.mp h
  obtain ⟨triangles, htriangles, rfl⟩ := (Shading.paint_mesh_eq_ok_iff hmesh).mp hp
  refine ⟨triangles, htriangles, fun q => ?_⟩
  have hbackground := Shading.value_paintBackground hcheck s.backgroundConversion
  have hcoverage := Coverage.colorAt_ofTriangles s.conversion bounds triangles.value q
  simp only [colorAt, Reported.bind, Reported.map, around, Paint.colorAt, Shading.renderAt,
    hbackground, hcoverage]
  cases Coverage.topmost bounds triangles.value q with
  | none => rfl
  | some triangle => rfl

/-- A triangle of grays on a white background. -/
theorem colorAt_eq_renderAt_gray :
    let mesh : Mesh ℚ := .freeForm ⟨8, 8, 8, [0, 8, 0, 8, 0, 1]⟩
    let s : Shading ℚ ℚ := ⟨.mesh mesh, .gray, none, some [1], some ⟨0, 0, 6, 6⟩⟩
    let data : Array UInt8 := #[0, 0, 0, 0, 0, 255, 0, 128, 0, 0, 255, 255]
    let bounds : PixelRect := ⟨0, 0, 16, 16⟩
    ∃ r, ofShading s .identity data bounds = .ok r ∧
      ∃ triangles, mesh.triangles s.vertexComponents .identity data = .ok triangles ∧
        ∀ q, r.value.colorAt q = s.renderAt .identity bounds triangles.value q := by
  intro mesh s data bounds
  have hmesh : s.geometry = .mesh mesh := rfl
  have hr : ofShading s .identity data bounds = .ok _ := rfl
  exact ⟨_, hr, colorAt_eq_renderAt hmesh hr⟩

end Rasterizer

end SmoothShading
