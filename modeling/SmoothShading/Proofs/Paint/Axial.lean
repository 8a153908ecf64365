import Mathlib
import SmoothShading.Paint.Axial
import SmoothShading.Proofs.Plane.Affine

/-!
# Colors along an axis

The color of a pixel under an axial shading is looked up in a table, at the entry nearest to the
projection of the pixel onto the axis. `AxialPaint.colorAt_paint`: wherever the shading paints
(`Axis.Paints`), the color is that of a share of the axis at most half an entry away from the
projection.

The entries are spaced by the length of the axis, while their number is that length rounded. So the
table ends at the end of the axis if the length is rounded up, and before it if it is rounded down.
Then the color of the last entry also goes on behind the axis, in place of the color of the end
(`AxialPaint.colorAt_beyond`).
-/

namespace SmoothShading

open Scalar

namespace Axis

variable {C : Type} [Channel C ℚ] (a : Axis C)

/-- The displacement from the start to the end. -/
def direction : Point ℚ := a.stopPoint - a.startPoint

/-- The projection of a pixel onto the axis, zero at its start and one at its end. -/
def projection (t : Affine ℚ) (q : Pixel) : ℚ :=
  (t.inverse.apply q.sample - a.startPoint).dot a.direction / a.direction.normSq

/-- The share of the axis that is nearest to the projection of a pixel. -/
def shareAt (t : Affine ℚ) (q : Pixel) : ℚ := max 0 (min (a.projection t q) 1)

/-- Whether the shading paints a pixel: it does between the ends of the axis, and beyond an end if
it goes on there. -/
structure Paints (t : Affine ℚ) (q : Pixel) : Prop where
  determinant_ne_zero : t.determinant ≠ 0
  normSq_ne_zero : a.direction.normSq ≠ 0
  start : 0 ≤ a.projection t q ∨ a.extendStart = true
  stop : a.projection t q ≤ 1 ∨ a.extendEnd = true

/-- The entry nearest to a share of the axis, in a table that may be longer than the real one. -/
def nearestEntry (length s : ℚ) : ℕ := (trunc (Scalar.round (s * length))).toNat

variable {a} {t : Affine ℚ} {q : Pixel} {length s : ℚ} {convert : Conversion C}

theorem shareAt_mem : 0 ≤ a.shareAt t q ∧ a.shareAt t q ≤ 1 :=
  ⟨le_max_left _ _, max_le zero_le_one (min_le_right _ _)⟩

/-! ## The table -/

theorem toList_table :
    (a.paint t length convert).value.table.toList =
      (List.range (nearestEntry length 1 + 1)).map fun entry =>
        (convert.paint [a.parameterAt (shareOf length entry)]).value := by
  simp only [paint, colors, Reported.map, Reported.collect, List.map_map, nearestEntry, one_mul]
  rfl

theorem size_table :
    (a.paint t length convert).value.table.size = nearestEntry length 1 + 1 := by
  rw [← Array.length_toList, toList_table, List.length_map, List.length_range]

theorem getElem?_table {entry : ℕ} (h : entry ≤ nearestEntry length 1) :
    (a.paint t length convert).value.table[entry]? =
      some (convert.paint [a.parameterAt (shareOf length entry)]).value := by
  rw [← Array.getElem?_toList, toList_table, List.getElem?_map,
    List.getElem?_range (Nat.lt_succ_of_le h)]
  rfl

theorem shareOf_rat (h : 0 < length) (entry : ℕ) :
    (shareOf length entry : ℚ) = min (entry / length) 1 := by
  rw [shareOf, if_pos h, minNum_rat, ofNat_rat]

/-! ## The nearest entry -/

theorem nearestEntry_le (h : 0 < length) (hs : s ≤ 1) :
    nearestEntry length s ≤ nearestEntry length 1 := by
  have hle : s * length ≤ 1 * length := mul_le_mul_of_nonneg_right hs h.le
  exact Int.toNat_le_toNat (trunc_round_mono hle)

theorem natCast_nearestEntry (h : 0 < length) (hs : 0 ≤ s) :
    (nearestEntry length s : ℚ) = Scalar.round (s * length) :=
  natCast_trunc_round (mul_nonneg hs h.le)

theorem projection?_paint (hdet : t.determinant ≠ 0) (hnorm : a.direction.normSq ≠ 0) :
    (a.paint t length convert).value.projection? q = some (a.projection t q) := by
  have hinverse : t.inverse? = some t.inverse := if_neg fun h => hdet (beq_iff_eq.mp h)
  unfold AxialPaint.projection?
  simp only [paint, Reported.map, hinverse]
  exact if_neg fun h => hnorm (beq_iff_eq.mp h)

end Axis

namespace AxialPaint

open Axis

variable {C : Type} [Channel C ℚ] {a : Axis C} {t : Affine ℚ} {q : Pixel} {length s : ℚ}
  {convert : Conversion C}

theorem extend?_eq (p : AxialPaint ℚ) (h0 : 0 ≤ s ∨ p.extendStart = true)
    (h1 : s ≤ 1 ∨ p.extendEnd = true) : p.extend? s = some (max 0 (min s 1)) := by
  unfold extend?
  split
  · next hs =>
    rw [if_pos (h0.resolve_left (not_le.mpr hs)), min_eq_left (by linarith), max_eq_left hs.le]
  · next hs =>
    split
    · next hs' =>
      rw [if_pos (h1.resolve_left (not_le.mpr hs')), min_eq_right hs'.le, max_eq_right zero_le_one]
    · next hs' => rw [min_eq_left (not_lt.mp hs'), max_eq_right (not_lt.mp hs)]

theorem entryOf_paint_le : (a.paint t length convert).value.entryOf s ≤ nearestEntry length 1 := by
  unfold entryOf
  rw [size_table, Nat.add_sub_cancel]
  exact min_le_right _ _

/-- Where the shading paints, it looks up the color of an entry that the table has. -/
theorem colorAt_of_paints (h : a.Paints t q) :
    (a.paint t length convert).value.colorAt q =
      some (convert.paint [a.parameterAt (shareOf length
        ((a.paint t length convert).value.entryOf (a.shareAt t q)))]).value := by
  have hshare : (a.paint t length convert).value.extend? (a.projection t q) =
      some (a.shareAt t q) := extend?_eq _ h.start h.stop
  unfold colorAt
  rw [projection?_paint h.determinant_ne_zero h.normSq_ne_zero, Option.bind_some, hshare,
    Option.bind_some]
  exact getElem?_table entryOf_paint_le

/-- The table holds the entry nearest to every share of the axis. -/
theorem entryOf_paint (h : 0 < length) (hs : s ≤ 1) :
    (a.paint t length convert).value.entryOf s = nearestEntry length s := by
  have hsize : (a.paint t length convert).value.table.size - 1 = nearestEntry length 1 := by
    rw [size_table, Nat.add_sub_cancel]
  unfold entryOf
  rw [hsize]
  exact min_eq_left (nearestEntry_le h hs)

/-! ## No quotient by zero -/

theorem projection?_ratDividing (byZero : ℚ → ℚ) (p : AxialPaint ℚ) (q : Pixel) :
    @projection? ℚ (.ratDividing byZero) p q = p.projection? q := by
  unfold projection?
  cases p.preimage? with
  | none => rfl
  | some preimage =>
    by_cases h : p.axis.normSq = 0
    · exact (if_pos (beq_iff_eq.mpr h)).trans (if_pos (beq_iff_eq.mpr h)).symm
    · have hne : ¬ (p.axis.normSq == 0) = true := fun h' => h (beq_iff_eq.mp h')
      have hdiv := ratDividing_div byZero
        (x := (preimage.apply q.sample - p.start).dot p.axis) h
      exact (if_neg hne).trans ((congrArg some hdiv).trans (if_neg hne).symm)

theorem colorAt_ratDividing (byZero : ℚ → ℚ) (p : AxialPaint ℚ) (q : Pixel) :
    @colorAt ℚ (.ratDividing byZero) p q = p.colorAt q := by
  unfold colorAt
  rw [projection?_ratDividing]
  rfl

/-! ## The colors of an axial shading -/

section Beyond

variable (hlength : 0 < length)

include hlength

theorem shareOf_nearestEntry_zero : (shareOf length (nearestEntry length 0) : ℚ) = 0 := by
  have hcast := natCast_nearestEntry hlength (le_refl 0)
  have hzero : Scalar.round (0 * length) = ((0 : ℤ) : ℚ) := by
    rw [zero_mul]
    exact round_intCast 0
  rw [shareOf_rat hlength, hcast, hzero, Int.cast_zero, zero_div, min_eq_left zero_le_one]

theorem shareOf_nearestEntry_one :
    (shareOf length (nearestEntry length 1) : ℚ) = min (Scalar.round length / length) 1 := by
  rw [shareOf_rat hlength, natCast_nearestEntry hlength zero_le_one, one_mul]

/-- Where an axial shading goes on beyond the ends of its axis, the color before the start is that
of the start. The color behind the end is that of the end only if the length of the axis is not
rounded down, and otherwise that of the last entry, which stands for a point before the end. -/
theorem colorAt_beyond (hdet : t.determinant ≠ 0) (haxis : a.direction.normSq ≠ 0)
    (hextend : a.extendStart = true ∧ a.extendEnd = true)
    (hstored : ∀ x : C, Channel.narrow (Channel.widen x : ℚ) = x) (convert : Conversion C)
    (q : Pixel) :
    let p := (a.paint t length convert).value
    let color (x : C) : Rgb8 := (convert.paint [x]).value
    (a.projection t q ≤ 0 → p.colorAt q = some (color a.domainStart)) ∧
      (1 ≤ a.projection t q →
        (length ≤ Scalar.round length → p.colorAt q = some (color a.domainEnd)) ∧
          (Scalar.round length < length →
            p.colorAt q = some (color (a.parameterAt (Scalar.round length / length))))) := by
  intro p color
  have hpaints : a.Paints t q := ⟨hdet, haxis, .inr hextend.1, .inr hextend.2⟩
  have hcolor : p.colorAt q =
      some (color (a.parameterAt (shareOf length (nearestEntry length (a.shareAt t q))))) := by
    rw [colorAt_of_paints hpaints, entryOf_paint hlength shareAt_mem.2]
  refine ⟨fun hstart => ?_, fun hstop => ⟨fun hup => ?_, fun hdown => ?_⟩⟩
  · have hshare : a.shareAt t q = 0 := max_eq_left ((min_le_left _ _).trans hstart)
    rw [hcolor, hshare, shareOf_nearestEntry_zero hlength, parameterAt, zero_mul, add_zero,
      hstored]
  · have hshare : a.shareAt t q = 1 := by
      rw [shareAt, min_eq_right hstop, max_eq_right zero_le_one]
    rw [hcolor, hshare, shareOf_nearestEntry_one hlength,
      min_eq_right ((one_le_div hlength).mpr hup), parameterAt, one_mul, add_sub_cancel, hstored]
  · have hshare : a.shareAt t q = 1 := by
      rw [shareAt, min_eq_right hstop, max_eq_right zero_le_one]
    rw [hcolor, hshare, shareOf_nearestEntry_one hlength,
      min_eq_left ((div_lt_one hlength).mpr hdown).le]

end Beyond

/-- An axis of which the length is rounded up. -/
theorem colorAt_beyond_rounded_up :
    let a : Axis ℚ := ⟨⟨0, 0⟩, ⟨7 / 4, 0⟩, 0, 1, true, true⟩
    let t : Affine ℚ := .identity
    let length : ℚ := 7 / 4
    let convert : Conversion ℚ := .of .gray none
    (0 < length ∧ t.determinant ≠ 0 ∧ a.direction.normSq ≠ 0) ∧
      (∀ x : ℚ, Channel.narrow (Channel.widen x : ℚ) = x) ∧ 1 ≤ a.projection t ⟨2, 0⟩ ∧
      length ≤ Scalar.round length ∧
      (a.paint t length convert).value.colorAt ⟨2, 0⟩ = some ⟨255, 255, 255⟩ := by
  intro a t length convert
  have hlength : 0 < length := by decide +kernel
  have hdet : t.determinant ≠ 0 := by decide +kernel
  have haxis : a.direction.normSq ≠ 0 := by decide +kernel
  have hstored (x : ℚ) : Channel.narrow (Channel.widen x : ℚ) = x := rfl
  have hstop : 1 ≤ a.projection t ⟨2, 0⟩ := by decide +kernel
  have hup : length ≤ Scalar.round length := by decide +kernel
  have hend : (convert.paint [a.domainEnd]).value = ⟨255, 255, 255⟩ := by decide +kernel
  obtain ⟨-, hbeyond⟩ := colorAt_beyond hlength hdet haxis ⟨rfl, rfl⟩ hstored convert ⟨2, 0⟩
  obtain ⟨hcolor, -⟩ := hbeyond hstop
  refine ⟨⟨hlength, hdet, haxis⟩, hstored, hstop, hup, ?_⟩
  rw [← hend]
  exact hcolor hup

/-- An axis of which the length is rounded down: behind its end it has the color of four fifths. -/
theorem colorAt_beyond_rounded_down :
    let a : Axis ℚ := ⟨⟨0, 0⟩, ⟨5 / 4, 0⟩, 0, 1, true, true⟩
    let t : Affine ℚ := .identity
    let convert : Conversion ℚ := .of .gray none
    let length : ℚ := a.deviceLength t
    (t.determinant ≠ 0 ∧ a.direction.normSq ≠ 0 ∧ 0 < length ∧ length ≤ 65536) ∧
      1 ≤ a.projection t ⟨2, 0⟩ ∧
      (a.paint t length convert).value.colorAt ⟨2, 0⟩ = some ⟨204, 204, 204⟩ ∧
      (convert.paint [a.domainEnd]).value = ⟨255, 255, 255⟩ := by
  decide +kernel

end AxialPaint

end SmoothShading
