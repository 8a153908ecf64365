import Mathlib
import SmoothShading.Proofs.Mesh.Flatness
import SmoothShading.Proofs.Stream.PatchChain

/-!
# Seams between patches

Each patch is sampled as finely as its own shape needs. Two patches with a common side could so be
sampled differently along it, and their triangles would leave cracks. If the side is curved they
are not (`PatchMesh.decode_samples_of_curved`): a curved side alone makes both patches take the
finest level along it, and the samples of both are the same points with the same colors.

The side may run the other way in the second patch, and whether a curve is straight does not depend
on its direction (`Cubic.isStraight_reverse`). Which points are sampled does not either, since the
parameters are evenly spaced (`Patch.reverse_parameters`).
-/

namespace SmoothShading

open Scalar

/-! ## Curves without a direction -/

theorem abs_sideOf_reverse (p a b : Point ℚ) : |sideOf p b a| = |sideOf p a b| := by
  rw [← abs_neg]
  congr 1
  simp only [sideOf]
  ring

theorem Cubic.isStraight_reverse (c : Cubic ℚ) : c.reverse.isStraight = c.isStraight := by
  simp only [isStraight, reverse, abs_rat]
  rw [abs_sideOf_reverse c.p2, abs_sideOf_reverse c.p1, abs_sub_comm c.p3.x, abs_sub_comm c.p3.y]
  simp only [Bool.and_comm]

namespace Patch

/-! ## Levels -/

section Levels

variable {C : Type}

/-- How many times the parameter along a side is halved. -/
def levelAlong (p : Patch ℚ C) : Side → ℕ
  | .vOne | .vZero => p.levelU
  | .uOne => p.levelV

theorem levelAlong_of_curved {p : Patch ℚ C} {side : Side}
    (h : (p.sideAt side).curve.isStraight = false) : p.levelAlong side = finestLevel := by
  cases side with
  | vOne => exact levelBetween_of_curved (.inr h)
  | uOne =>
    rw [sideAt, Cubic.isStraight_reverse] at h
    exact levelBetween_of_curved (.inr h)
  | vZero =>
    rw [sideAt, Cubic.isStraight_reverse] at h
    exact levelBetween_of_curved (.inl h)

theorem levelV_behind_of_curved {kind : PatchKind} {p : Patch ℚ C} {r : PatchRecord ℚ C kind}
    {side : Side} (hr : r.side? = some side) (h : (p.sideAt side).curve.isStraight = false) :
    (r.behind p).levelV = finestLevel := by
  cases r with
  | fresh points colors => cases hr
  | joined side' points colors =>
    cases hr
    have hrow : (ofSide kind (p.sideAt side) points colors).grid.row0 = (p.sideAt side).curve :=
      row0_gridOf_append kind _ points
    refine levelBetween_of_curved (.inl ?_)
    rw [PatchRecord.behind, hrow]
    exact h

end Levels

/-! ## Samples on the sides -/

theorem parts_pos (level : ℕ) : 0 < parts level := by
  rw [parts, Nat.one_shiftLeft]
  exact Nat.two_pow_pos level

theorem parameters_rat (level : ℕ) :
    (parameters level : List ℚ) =
      (List.range (parts level + 1)).map fun i : ℕ => (i : ℚ) / (parts level : ℚ) := rfl

theorem head?_parameters (level : ℕ) : (parameters level : List ℚ).head? = some 0 := by
  rw [parameters_rat, List.range_succ_eq_map, List.map_cons, List.head?_cons, Nat.cast_zero,
    zero_div]

theorem getLast?_parameters (level : ℕ) : (parameters level : List ℚ).getLast? = some 1 := by
  have hne : (parts level : ℚ) ≠ 0 := Nat.cast_ne_zero.mpr (parts_pos level).ne'
  rw [parameters_rat, List.range_succ, List.map_append, List.map_singleton,
    List.getLast?_concat, div_self hne]

/-- The ends of the parts are the same from the other end of the interval. -/
theorem reverse_parameters (level : ℕ) :
    (parameters level : List ℚ).reverse = (parameters level).map (1 - ·) := by
  have hne : (parts level : ℚ) ≠ 0 := Nat.cast_ne_zero.mpr (parts_pos level).ne'
  rw [parameters_rat, List.map_map]
  apply List.ext_getElem
  · simp
  · intro i h₁ h₂
    have hi : i ≤ parts level := by
      rw [List.length_map, List.length_range] at h₂
      exact Nat.le_of_lt_succ h₂
    simp only [List.getElem_reverse, List.getElem_map, List.getElem_range, List.length_map,
      List.length_range, Function.comp_apply, Nat.add_sub_cancel]
    rw [Nat.cast_sub hi, sub_div, div_self hne]

section Samples

variable {C : Type} [Channel C ℚ] (p : Patch ℚ C)

/-- The samples on a side, in the direction in which the next patch begins with it. -/
def sideSamples : Side → List (Vertex ℚ C)
  | .vOne => p.samples.getLastD []
  | .uOne => (p.samples.filterMap List.getLast?).reverse
  | .vZero => (p.samples.headD []).reverse

/-- The samples at `u = 0`, by increasing `v`. -/
def firstSamples : List (Vertex ℚ C) := p.samples.filterMap List.head?

/-- What picks the sample at `u` from every row picks the samples of a column. -/
theorem filterMap_samples {pick : List (Vertex ℚ C) → Option (Vertex ℚ C)} {u : ℚ}
    (hpick : ∀ f : ℚ → Vertex ℚ C, pick ((parameters p.levelU).map f) = some (f u)) :
    p.samples.filterMap pick = (parameters p.levelV).map fun v => p.vertexAt u v := by
  unfold samples
  rw [List.filterMap_map, ← List.filterMap_eq_map]
  exact List.filterMap_congr fun v _ => hpick fun u => p.vertexAt u v

theorem firstSamples_eq :
    p.firstSamples = (parameters p.levelV).map fun v => p.vertexAt 0 v := by
  refine p.filterMap_samples fun f => ?_
  rw [List.head?_map, head?_parameters, Option.map_some]

theorem sideSamples_eq (side : Side) :
    p.sideSamples side =
      (parameters (p.levelAlong side)).map fun s =>
        p.vertexAt (side.place s).1 (side.place s).2 := by
  cases side with
  | vOne =>
    simp only [sideSamples, samples, List.getLastD_eq_getLast?, List.getLast?_map,
      getLast?_parameters]
    rfl
  | uOne =>
    have hlast : p.samples.filterMap List.getLast? =
        (parameters p.levelV).map fun v => p.vertexAt 1 v := by
      refine p.filterMap_samples fun f => ?_
      rw [List.getLast?_map, getLast?_parameters, Option.map_some]
    rw [sideSamples, hlast, ← List.map_reverse, reverse_parameters, List.map_map]
    rfl
  | vZero =>
    have hfirst : p.samples.headD [] = (parameters p.levelU).map fun u => p.vertexAt u 0 := by
      simp only [samples, List.headD_eq_head?_getD, List.head?_map, head?_parameters]
      rfl
    rw [sideSamples, hfirst, ← List.map_reverse, reverse_parameters, List.map_map]
    rfl

variable {p}

/-- The patch `q` begins where the patch `p` has a side, and along this side both are sampled alike:
at level four, and at the same points with the same colors. -/
structure SharesSamples (p q : Patch ℚ C) (side : Side) : Prop where
  level : p.levelAlong side = 4
  level_behind : q.levelV = 4
  samples : q.firstSamples = p.sideSamples side
  places : p.sideSamples side =
    (List.range 17).map fun i : ℕ => p.vertexAt (side.place (i / 16)).1 (side.place (i / 16)).2

theorem sharesSamples_of_meets {q : Patch ℚ C} {side : Side} (h : p.Meets q side)
    (hlevel : p.levelAlong side = finestLevel) (hbehind : q.levelV = finestLevel) :
    p.SharesSamples q side := by
  refine ⟨hlevel, hbehind, ?_, ?_⟩
  · rw [firstSamples_eq, sideSamples_eq, hlevel, hbehind]
    refine List.map_congr_left fun s _ => ?_
    obtain ⟨hpoint, hcolor⟩ := h s
    rw [vertexAt, vertexAt, hpoint, hcolor]
  · rw [sideSamples_eq, hlevel, parameters_rat, List.map_map]
    rfl

end Samples

end Patch

namespace PatchMesh

variable {C : Type} [Channel C ℚ]

/-- The patches of a stream come from its records, in order. Where a record joins on to a curved
side of the patch before it, the two patches are sampled alike along that side, whatever else is
known of them. -/
theorem decode_samples_of_curved (f : FlaggedFormat ℚ) (t : Affine ℚ) (kind : PatchKind)
    (data : Array UInt8) :
    let patches := (decode f t kind data : Reported (List (Patch ℚ C))).value
    let sources : List (ℕ × PatchRecord ℚ C kind) := sources f t kind data
    patches.length = sources.length ∧
      ∀ i p q side, patches[i]? = some p → patches[i + 1]? = some q →
        (sources[i + 1]?.bind fun source => Side.ofFlag? source.1) = some side →
        (p.sideAt side).curve.isStraight = false → p.SharesSamples q side := by
  intro patches sources
  have hpatches : patches = (assemble none (sources.map Prod.snd)).value :=
    value_decode f t kind data
  have hlabels := labelled_of_mem_sources (C := C) f t kind data
  obtain ⟨hlength, hmeets⟩ := assemble_meets hlabels (flag_of_mem_head?_sources f t kind data)
  rw [← hpatches] at hlength hmeets
  refine ⟨hlength, ?_⟩
  intro i p q side hp hq hside hcurved
  obtain ⟨⟨flag, record⟩, hrecord, hflag⟩ := Option.bind_eq_some_iff.mp hside
  have hne : flag ≠ 0 := by
    rintro rfl
    cases hflag
  obtain ⟨j, p', side', hi, hp', hside', hbehind, hmeet⟩ := hmeets _ _ _ _ hq hrecord hne
  obtain rfl : i = j := Nat.succ.inj hi
  obtain rfl : p = p' := Option.some.inj (hp.symm.trans hp')
  obtain rfl : side = side' := Option.some.inj (hflag.symm.trans hside')
  obtain ⟨-, hlabel, -⟩ := hlabels _ (List.mem_of_getElem? hrecord)
  have hlevel := Patch.levelV_behind_of_curved (hlabel.trans hflag) hcurved
  rw [← hbehind] at hlevel
  exact Patch.sharesSamples_of_meets hmeet (Patch.levelAlong_of_curved hcurved) hlevel

/-- A side that bulges to the left and is handed on by decreasing `v`. -/
theorem decode_samples_of_curved_turned :
    let bit : Bits.Width := .one
    let range : DecodeRange ℚ := ⟨0, 8⟩
    let f : FlaggedFormat ℚ := ⟨⟨bit, bit, range, range, [⟨0, 1⟩]⟩, ⟨2, by decide, by decide⟩⟩
    let data : Array UInt8 := #[1, 95, 74, 26, 170, 255, 128]
    let patches := (decode f .identity .coons data : Reported (List (Patch ℚ ℚ))).value
    ∃ p q, patches[0]? = some p ∧ patches[1]? = some q ∧
      (p.sideAt .uOne).curve.isStraight = false ∧ p.SharesSamples q .uOne := by
  intro bit range f data patches
  obtain ⟨hlength, hsamples⟩ := decode_samples_of_curved (C := ℚ) f .identity .coons data
  have hside : ((sources (C := ℚ) f .identity .coons data)[1]?.bind fun source =>
      Side.ofFlag? source.1) = some .uOne := by cbv
  have hcurved : ((decode (C := ℚ) f .identity .coons data).value[0]?.map fun p =>
      (p.sideAt .uOne).curve.isStraight) = some false := by cbv
  obtain ⟨p, hp, hcurved⟩ := Option.map_eq_some_iff.mp hcurved
  obtain ⟨source, hsource, -⟩ := Option.bind_eq_some_iff.mp hside
  obtain ⟨hlt, -⟩ := List.getElem?_eq_some_iff.mp hsource
  rw [← hlength] at hlt
  have hq := List.getElem?_eq_getElem hlt
  exact ⟨p, _, hp, hq, hcurved, hsamples 0 p _ .uOne hp hq hside hcurved⟩

end PatchMesh

end SmoothShading
