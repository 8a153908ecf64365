import Mathlib
import SmoothShading.Proofs.Rasterizer

/-!
# Unusable shadings

A shading is unusable if it has a fault. `Shading.faults` lists all of them, in the order in which
they are looked for, from the description alone: neither the stream nor the map to the device has a
part in it. A rasterizer is made if and only if there are none, and otherwise the first one is the
error (`Rasterizer.ofShading_firstFault`). In place of a rasterizer that cannot be made, one paints
the background, and warns of nothing that happened before.

What fails with the first of some faults can be put together from parts that do
(`FailsFirst.bind`), so each function that checks something has a lemma of its own.
-/

namespace SmoothShading

/-! ## The first fault -/

/-- The computation fails if and only if there are faults, and then with the first one. -/
def FailsFirst {ε α : Type} (x : Except ε α) (faults : List ε) : Prop :=
  ∀ e, x = .error e ↔ faults.head? = some e

namespace FailsFirst

variable {ε α β : Type} {x : Except ε α} {faults later : List ε}

theorem ok (a : α) : FailsFirst (.ok a : Except ε α) [] := by
  intro e
  exact iff_of_false nofun nofun

theorem error (e : ε) : FailsFirst (.error e : Except ε α) [e] := by
  intro e'
  rw [Except.error.injEq, List.head?_singleton, Option.some.injEq]

theorem bind {f : α → Except ε β} (hx : FailsFirst x faults)
    (hf : ∀ a, FailsFirst (f a) later) : FailsFirst (x >>= f) (faults ++ later) := by
  cases x with
  | error e =>
    have hhead : faults.head? = some e := (hx e).mp rfl
    intro e'
    rw [List.head?_append, hhead, Option.some_or]
    exact FailsFirst.error e e'
  | ok a =>
    have hnil : faults = [] := by
      cases faults with
      | nil => rfl
      | cons e rest => cases (hx e).mpr rfl
    rw [hnil]
    exact hf a

/-- What is only computed from a result adds no faults. -/
theorem bind_ok (hx : FailsFirst x faults) (g : α → β) :
    FailsFirst (x >>= fun a => .ok (g a)) faults := by
  rw [← List.append_nil faults]
  exact hx.bind fun a => ok (g a)

end FailsFirst

/-- The fault, if the condition for it holds. -/
def faultIf (p : Prop) [Decidable p] (e : ShadingError) : List ShadingError :=
  if p then [e] else []

theorem failsFirst_faultIf {α : Type} {p : Prop} [Decidable p] {e : ShadingError}
    {x : Except ShadingError α} (hp : p → x = .error e) (hn : ¬ p → ∃ a, x = .ok a) :
    FailsFirst x (faultIf p e) := by
  unfold faultIf
  split
  · next h =>
    rw [hp h]
    exact FailsFirst.error e
  · next h =>
    obtain ⟨a, ha⟩ := hn h
    rw [ha]
    exact FailsFirst.ok a

theorem failsFirst_ite {α : Type} {p q : Prop} [Decidable p] [Decidable q] {e : ShadingError}
    {x : Except ShadingError α} {later : List ShadingError} (hpq : p ↔ q)
    (hx : FailsFirst x later) :
    FailsFirst (if p then .error e else x) (faultIf q e ++ later) := by
  unfold faultIf
  by_cases hp : p
  · rw [if_pos hp, if_pos (hpq.mp hp)]
    intro e'
    rw [List.singleton_append, List.head?_cons, ← List.head?_singleton]
    exact FailsFirst.error e e'
  · rw [if_neg hp, if_neg (hpq.not.mp hp)]
    exact hx

/-! ## Layouts of streams -/

section Layouts

variable {K C : Type}

/-- The fault of a width that samples cannot have. -/
def widthFaults (bits : ℕ) : List ShadingError :=
  faultIf (¬ (1 ≤ bits ∧ bits ≤ 32)) (.invalidBitSize bits)

/-- The fault of a decode array that is too short for vertices with `n` components. -/
def StreamLayout.decodeFaults (layout : StreamLayout C) (n : ℕ) : List ShadingError :=
  faultIf (layout.decode.length < 4 + 2 * n ∨ n = 0) .invalidDecodeArray

theorem StreamLayout.width_failsFirst (bits : ℕ) : FailsFirst (width bits) (widthFaults bits) := by
  unfold width Bits.Width.ofNat?
  apply failsFirst_faultIf
  · intro h
    rw [dif_neg h]
  · intro h
    rw [dif_pos (not_not.mp h)]
    exact ⟨_, rfl⟩

theorem StreamLayout.ranges_failsFirst [Channel C K] (layout : StreamLayout C) (n : ℕ) :
    FailsFirst (layout.ranges (K := K) n) (layout.decodeFaults n) := by
  have hlength : (layout.decode.map (Channel.widen : C → K)).length = layout.decode.length :=
    List.length_map _
  unfold ranges decodeFaults
  rw [← hlength]
  split
  · next x0 x1 y0 y1 rest hdecode =>
    rw [hdecode]
    simp only [List.length_cons]
    apply failsFirst_faultIf
    · intro h
      rw [if_pos (by omega)]
    · intro h
      rw [if_neg (by omega)]
      exact ⟨_, rfl⟩
  · next hshort =>
    apply failsFirst_faultIf
    · exact fun _ => rfl
    · intro h
      exfalso
      match hdecode : layout.decode.map (Channel.widen : C → K) with
      | [] | [_] | [_, _] | [_, _, _] =>
        rw [hdecode] at h
        simp only [List.length_cons, List.length_nil] at h
        omega
      | x0 :: x1 :: y0 :: y1 :: rest => exact hshort x0 x1 y0 y1 rest hdecode

theorem VertexFormat.ofLayout_failsFirst [Channel C K] (layout : StreamLayout C) (n : ℕ) :
    FailsFirst (VertexFormat.ofLayout (K := K) layout n)
      ([layout.coordinateBits, layout.componentBits].flatMap widthFaults ++
        layout.decodeFaults n) := by
  have hranges := layout.ranges_failsFirst (K := K) n
  unfold ofLayout
  simp only [List.flatMap_cons, List.flatMap_nil, List.append_nil, List.append_assoc]
  refine (StreamLayout.width_failsFirst _).bind fun coordinate => ?_
  refine (StreamLayout.width_failsFirst _).bind fun component => ?_
  exact hranges.bind_ok _

theorem FlaggedFormat.ofLayout_failsFirst [Channel C K] (layout : StreamLayout C) (n : ℕ) :
    FailsFirst (FlaggedFormat.ofLayout (K := K) layout n)
      ([layout.coordinateBits, layout.componentBits, layout.flagBits].flatMap widthFaults ++
        layout.decodeFaults n) := by
  have hranges := layout.ranges_failsFirst (K := K) n
  unfold ofLayout
  simp only [List.flatMap_cons, List.flatMap_nil, List.append_nil, List.append_assoc]
  refine (StreamLayout.width_failsFirst _).bind fun coordinate => ?_
  refine (StreamLayout.width_failsFirst _).bind fun component => ?_
  refine (StreamLayout.width_failsFirst _).bind fun flag => ?_
  exact hranges.bind_ok _

end Layouts

/-! ## Meshes -/

section Meshes

variable {K C : Type}

/-- The widths that a mesh reads samples of. Lattices have no flags. -/
def Mesh.widths : Mesh C → List ℕ
  | freeForm layout | patches _ layout =>
    [layout.coordinateBits, layout.componentBits, layout.flagBits]
  | lattice layout _ => [layout.coordinateBits, layout.componentBits]

/-- The faults in the layout of a mesh whose vertices have `n` components. -/
def Mesh.layoutFaults (mesh : Mesh C) (n : ℕ) : List ShadingError :=
  mesh.widths.flatMap widthFaults ++ mesh.layout.decodeFaults n

theorem Mesh.triangles_failsFirst [Scalar K] [Channel C K] (mesh : Mesh C) (n : ℕ)
    (t : Affine K) (data : Array UInt8) :
    FailsFirst (mesh.triangles n t data) (mesh.layoutFaults n) := by
  cases mesh with
  | freeForm layout => exact (FlaggedFormat.ofLayout_failsFirst layout n).bind_ok _
  | lattice layout verticesPerRow => exact (VertexFormat.ofLayout_failsFirst layout n).bind_ok _
  | patches kind layout => exact (FlaggedFormat.ofLayout_failsFirst layout n).bind_ok _

end Meshes

/-! ## Shadings -/

namespace Shading

variable {K C : Type}

/-- The fault of a background that does not have the components of the color space. -/
def backgroundFaults (s : Shading K C) : List ShadingError :=
  faultIf (∃ c ∈ s.background, c.length ≠ s.space.components) .componentMismatch

/-- The faults that only one kind of shading can have: an axis without a function, and rows of a
lattice without a cell. -/
def geometryFaults (s : Shading K C) : List ShadingError :=
  match s.geometry with
  | .axial _ => faultIf (s.function = none) .missingFunction
  | .mesh (.lattice _ verticesPerRow) =>
    faultIf (verticesPerRow < 2) (.invalidVerticesPerRow verticesPerRow)
  | .mesh _ => []

/-- All faults of a shading, in the order in which they are looked for. -/
def faults (s : Shading K C) : List ShadingError :=
  s.backgroundFaults ++ s.geometryFaults ++
    match s.geometry with
    | .axial _ => []
    | .mesh mesh => mesh.layoutFaults s.vertexComponents

/-- A lattice with a fault in everything that is looked at. -/
example :
    (⟨.mesh (.lattice ⟨0, 33, 0, [0, 1, 0]⟩ 1), .gray, none, some [], none⟩ :
      Shading ℚ ℚ).faults =
      [.componentMismatch, .invalidVerticesPerRow 1, .invalidBitSize 0, .invalidBitSize 33,
        .invalidDecodeArray] := by
  decide

theorem check_failsFirst (s : Shading K C) :
    FailsFirst s.check (s.backgroundFaults ++ s.geometryFaults) := by
  have hbackground : s.background.any (·.length != s.space.components) = true ↔
      ∃ c ∈ s.background, c.length ≠ s.space.components := by
    simp only [Option.any_eq_true, bne_iff_ne, Option.mem_def]
  unfold check
  refine failsFirst_ite hbackground ?_
  unfold geometryFaults
  cases s.geometry with
  | axial axis =>
    apply failsFirst_faultIf
    · intro h
      rw [h]
      rfl
    · intro h
      rw [if_neg (by rwa [Option.isNone_iff_eq_none])]
      exact ⟨(), rfl⟩
  | mesh mesh =>
    cases mesh with
    | freeForm layout => exact FailsFirst.ok ()
    | patches kind layout => exact FailsFirst.ok ()
    | lattice layout verticesPerRow =>
      apply failsFirst_faultIf
      · intro h
        exact if_pos h
      · intro h
        exact ⟨(), if_neg h⟩

/-- The background, if it has the components of the color space. -/
def fittingBackground (s : Shading K C) : Option (Color C) :=
  s.background.filter (·.length = s.space.components)

theorem paintBackground_eq (s : Shading K C) (convert : Conversion C) :
    s.paintBackground convert =
      ⟨s.fittingBackground.map fun c => (convert.paint c).value,
        s.fittingBackground.toList.flatMap fun c => (convert.paint c).warnings⟩ := by
  unfold paintBackground fittingBackground
  cases s.background with
  | none => rfl
  | some c =>
    by_cases h : c.length = s.space.components
    · have hfits : (some c).filter (·.length = s.space.components) = some c :=
        Option.filter_some_pos (decide_eq_true h)
      rw [hfits]
      simp [h, Reported.map]
    · have hfits : (some c).filter (·.length = s.space.components) = none :=
        Option.filter_some_neg (decide_eq_false h)
      rw [hfits]
      simp [h, Reported.pure]

variable [Scalar K] [Channel C K]

theorem paint_failsFirst (s : Shading K C) (convert : Conversion C) (t : Affine K)
    (data : Array UInt8) (bounds : PixelRect) :
    FailsFirst (s.paint convert t data bounds)
      (match s.geometry with
      | .axial _ => []
      | .mesh mesh => mesh.layoutFaults s.vertexComponents) := by
  unfold paint
  cases s.geometry with
  | axial axis => exact FailsFirst.ok _
  | mesh mesh => exact (mesh.triangles_failsFirst _ t data).bind_ok _

end Shading

namespace Rasterizer

variable {K C : Type} [Scalar K] [Channel C K]

theorem build_failsFirst (s : Shading K C) (convert convertBackground : Conversion C)
    (t : Affine K) (data : Array UInt8) (bounds : PixelRect) :
    FailsFirst (build s convert convertBackground t data bounds) s.faults :=
  s.check_failsFirst.bind fun _ => (s.paint_failsFirst convert t data bounds).bind_ok _

theorem ofShadingOrBackground_of_error [Scalar C] {s : Shading K C} {t : Affine K}
    {data : Array UInt8} {bounds : PixelRect} {e : ShadingError}
    (h : ofShading s t data bounds = .error e) :
    ofShadingOrBackground s t data bounds =
      (around s s.backgroundConversion t .nothing).after [.constructionFailure] := by
  simp only [ofShadingOrBackground, h]

/-- A shading is unusable if and only if it has a fault, and the first one is the error. Then the
background is painted wherever the box of the shading does not clip, and the one warning before
those of its conversion is that the shading is unusable. A usable shading is painted as it is. -/
theorem ofShading_firstFault [Scalar C] (s : Shading K C) (t : Affine K) (data : Array UInt8)
    (bounds : PixelRect) :
    (∀ e, ofShading s t data bounds = .error e ↔ s.faults.head? = some e) ∧
      let shown := ofShadingOrBackground s t data bounds
      match ofShading s t data bounds with
      | .ok r => shown = r
      | .error _ =>
        (shown.warnings = .constructionFailure ::
          s.fittingBackground.toList.flatMap fun c => (s.backgroundConversion.paint c).warnings) ∧
        ∀ q, shown.value.colorAt q =
          if (s.clip t).any (·.excludes q.sample) then none
          else s.fittingBackground.map fun c => (s.backgroundConversion.paint c).value := by
  refine ⟨build_failsFirst s _ _ t data bounds, ?_⟩
  intro shown
  cases h : ofShading s t data bounds with
  | ok r =>
    simp only [shown, ofShadingOrBackground, h]
  | error e =>
    have hshown : shown = _ := ofShadingOrBackground_of_error h
    rw [hshown]
    simp only [Reported.after, around, Reported.map, s.paintBackground_eq]
    exact ⟨rfl, fun q => rfl⟩

end Rasterizer

end SmoothShading
