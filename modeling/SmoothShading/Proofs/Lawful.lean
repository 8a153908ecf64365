import Mathlib
import SmoothShading.Plane.Orientation
import SmoothShading.Proofs.Device

/-!
# Laws of scalars

Coordinates are computed exactly or with binary floating-point numbers. Both keep the laws of a
`LawfulScalar`: their numbers are ordered, the coordinates of the device stand in this order as
integers do, and what is rounded is an integer. No law is about sums and products, which may round,
overflow or give no number at all.

A `LawfulRounding` also tells what numbers are rounded to and which are equal, and still says
nothing of sums and products. Of differences a `LawfulDifference` says only that they are as large
one way round as the other.

The laws suffice for walking from one scalar to another. The integers that lie between two ends are
those between their integer parts (`Scalar.mem_span_trunc_iff`), as long as the ends are integers
and stop at the range of the device, and an end that is cut to a range leaves the integers of the
range as they are (`Scalar.mem_span_cut_iff`).
-/

namespace SmoothShading

namespace Scalar

variable {K : Type} [Scalar K]

/-- If `x` lies between coordinates of the device, it is an integer: neither `x` nor its integer
part is greater than the other. They need not be equal, since one may be a negative zero. -/
def IsWhole (x : K) : Prop :=
  ∀ near far : ℤ, Device.InRange near → Device.InRange far → ofInt near ≤ x → x ≤ ofInt far →
    x ≤ ofInt (trunc x) ∧ ofInt (trunc x) ≤ x

end Scalar

open Scalar

/-- The laws of scalars that hold in spite of rounding, of infinite values and of values that are
not numbers. -/
class LawfulScalar (K : Type) [Scalar K] : Prop where
  le_trans {x y z : K} : x ≤ y → y ≤ z → x ≤ z
  le_total {x y : K} : isNumber x = true → isNumber y = true → x ≤ y ∨ y ≤ x
  lt_iff {x y : K} : x < y ↔ x ≤ y ∧ ¬ y ≤ x
  isNumber_of_isFinite {x : K} : isFinite x = true → isNumber x = true
  /-- An integer out of the range may move when it becomes a scalar, but not past one within. -/
  ofInt_le_ofInt {m n : ℤ} : Device.InRange m ∨ Device.InRange n → ((ofInt m : K) ≤ ofInt n ↔ m ≤ n)
  trunc_ofInt {n : ℤ} : Device.InRange n → trunc (ofInt n : K) = n
  isWhole_round (x : K) : IsWhole (round x)

theorem Scalar.isWhole_intCast (n : ℤ) : IsWhole (n : ℚ) := by
  intro near far _ _ _ _
  rw [trunc_intCast, ofInt_rat]
  exact ⟨le_refl _, le_refl _⟩

instance Scalar.lawfulRat : LawfulScalar ℚ where
  le_trans := le_trans
  le_total _ _ := le_total _ _
  lt_iff := lt_iff_le_not_ge
  isNumber_of_isFinite _ := isNumber_rat _
  ofInt_le_ofInt _ := Int.cast_le
  trunc_ofInt _ := trunc_intCast _
  isWhole_round x := by
    obtain ⟨n, hn⟩ := exists_round_eq x
    rw [hn]
    exact isWhole_intCast n

/-- The laws of rounding and of equality, which infinite values and values that are not numbers
keep as well. -/
class LawfulRounding (K : Type) [Scalar K] : Prop extends LawfulScalar K where
  beq_iff {x y : K} : (x == y) = true ↔ x ≤ y ∧ y ≤ x
  round_ofInt {n : ℤ} : Device.InRange n → round (ofInt n : K) = ofInt n
  /-- No other rounded number has a coordinate of the device as its integer part. The integer part
  of an infinite value, if it has one, is out of this range. -/
  round_of_trunc {x : K} : isNumber (round x) = true → Device.InRange (trunc (round x)) →
    round x ≤ ofInt (trunc (round x)) ∧ ofInt (trunc (round x)) ≤ round x

instance Scalar.lawfulRoundingRat : LawfulRounding ℚ where
  beq_iff := beq_iff_eq.trans le_antisymm_iff
  round_ofInt _ := round_intCast _
  round_of_trunc {x} _ _ := by
    obtain ⟨n, hn⟩ := exists_round_eq x
    rw [hn, trunc_intCast, ofInt_rat]
    exact ⟨le_refl _, le_refl _⟩

/-- The law of differences, which rounding keeps, since it treats both signs alike. -/
class LawfulDifference (K : Type) [Scalar K] : Prop where
  abs_sub_lt_comm {x y z : K} : Scalar.abs (x - y) < z ↔ Scalar.abs (y - x) < z

instance Scalar.lawfulDifferenceRat : LawfulDifference ℚ where
  abs_sub_lt_comm {x y z} := by rw [abs_rat, abs_rat, abs_sub_comm]

theorem coincide_comm {K : Type} [Scalar K] [LawfulDifference K] (p q : Point K) :
    coincide p q = coincide q p := by
  unfold coincide
  rw [decide_eq_decide.mpr (LawfulDifference.abs_sub_lt_comm (x := p.x)),
    decide_eq_decide.mpr (LawfulDifference.abs_sub_lt_comm (x := p.y))]

/-- The laws of stored channels: what was stored is read back, and rounding for storage keeps the
order of numbers. -/
class LawfulChannel (C : Type) [Channel C ℚ] : Prop where
  narrow_widen (x : C) : Channel.narrow (Channel.widen x : ℚ) = x
  widen_narrow_mono :
    Monotone fun x : ℚ => (Channel.widen (Channel.narrow x : C) : ℚ)

instance Channel.lawfulRat : LawfulChannel ℚ where
  narrow_widen _ := rfl
  widen_narrow_mono := monotone_id

namespace Scalar

variable {K : Type} [Scalar K] {x y z : K}

/-! ## The smaller and the greater of two numbers -/

theorem isNumber_iff : isNumber x = true ↔ x ≤ x := decide_eq_true_iff

theorem minNum_eq_or (x y : K) : minNum x y = x ∨ minNum x y = y := by
  unfold minNum
  split
  · split
    · exact .inr rfl
    · exact .inl rfl
  · exact .inr rfl

theorem maxNum_eq_or (x y : K) : maxNum x y = x ∨ maxNum x y = y := by
  unfold maxNum
  split
  · split
    · exact .inr rfl
    · exact .inl rfl
  · exact .inr rfl

/-- What both numbers have, the smaller and the greater one have. -/
theorem minNum_maxNum_of {P : K → Prop} (hx : P x) (hy : P y) :
    P (minNum x y) ∧ P (maxNum x y) := by
  constructor
  · rcases minNum_eq_or x y with h | h
    · rwa [h]
    · rwa [h]
  · rcases maxNum_eq_or x y with h | h
    · rwa [h]
    · rwa [h]

variable [LawfulScalar K]

theorem le_of_not_lt (hx : isNumber x = true) (hy : isNumber y = true) (h : ¬ x < y) : y ≤ x := by
  rcases LawfulScalar.le_total hx hy with hle | hle
  · by_contra hyx
    exact h (LawfulScalar.lt_iff.mpr ⟨hle, hyx⟩)
  · exact hle

theorem le_minNum_iff (hx : isNumber x = true) (hy : isNumber y = true) :
    z ≤ minNum x y ↔ z ≤ x ∧ z ≤ y := by
  unfold minNum
  rw [if_pos hx]
  by_cases h : y < x
  · rw [if_pos h]
    exact ⟨fun hz => ⟨LawfulScalar.le_trans hz (LawfulScalar.lt_iff.mp h).1, hz⟩, And.right⟩
  · rw [if_neg h]
    exact ⟨fun hz => ⟨hz, LawfulScalar.le_trans hz (le_of_not_lt hy hx h)⟩, And.left⟩

theorem maxNum_le_iff (hx : isNumber x = true) (hy : isNumber y = true) :
    maxNum x y ≤ z ↔ x ≤ z ∧ y ≤ z := by
  unfold maxNum
  rw [if_pos hx]
  by_cases h : x < y
  · rw [if_pos h]
    exact ⟨fun hz => ⟨LawfulScalar.le_trans (LawfulScalar.lt_iff.mp h).1 hz, hz⟩, And.right⟩
  · rw [if_neg h]
    exact ⟨fun hz => ⟨hz, LawfulScalar.le_trans (le_of_not_lt hx hy h) hz⟩, And.left⟩

theorem right_le_maxNum (hx : isNumber x = true) (hy : isNumber y = true) : y ≤ maxNum x y :=
  ((maxNum_le_iff hx hy).mp
    (isNumber_iff.mp (minNum_maxNum_of (P := (isNumber · = true)) hx hy).2)).2

theorem minNum_le_right (hx : isNumber x = true) (hy : isNumber y = true) : minNum x y ≤ y :=
  ((le_minNum_iff hx hy).mp
    (isNumber_iff.mp (minNum_maxNum_of (P := (isNumber · = true)) hx hy).1)).2

/-! ## Integers between two ends -/

theorem isNumber_ofInt {n : ℤ} (hn : Device.InRange n) : isNumber (ofInt n : K) = true :=
  isNumber_iff.mpr ((LawfulScalar.ofInt_le_ofInt (.inl hn)).mpr (Int.le_refl n))

theorem isWhole_ofInt {n : ℤ} (hn : Device.InRange n) : IsWhole (ofInt n : K) := by
  intro near far _ _ _ _
  have hnumber := isNumber_iff.mp (isNumber_ofInt (K := K) hn)
  rw [LawfulScalar.trunc_ofInt hn]
  exact ⟨hnumber, hnumber⟩

section Ends

variable {near far n : ℤ}

/-- The integers behind a whole number are those behind its integer part. -/
theorem IsWhole.trunc_le_iff (hx : IsWhole x) (hnear : Device.InRange near)
    (hfar : Device.InRange far) (h₁ : ofInt near ≤ x) (h₂ : x ≤ ofInt far)
    (hn : Device.InRange n) : trunc x ≤ n ↔ x ≤ ofInt n := by
  obtain ⟨hle, hge⟩ := hx near far hnear hfar h₁ h₂
  rw [← LawfulScalar.ofInt_le_ofInt (K := K) (.inr hn)]
  exact ⟨LawfulScalar.le_trans hle, LawfulScalar.le_trans hge⟩

theorem IsWhole.le_trunc_iff (hx : IsWhole x) (hnear : Device.InRange near)
    (hfar : Device.InRange far) (h₁ : ofInt near ≤ x) (h₂ : x ≤ ofInt far)
    (hn : Device.InRange n) : n ≤ trunc x ↔ ofInt n ≤ x := by
  obtain ⟨hle, hge⟩ := hx near far hnear hfar h₁ h₂
  rw [← LawfulScalar.ofInt_le_ofInt (K := K) (.inl hn)]
  exact ⟨fun h => LawfulScalar.le_trans h hge, fun h => LawfulScalar.le_trans h hle⟩

/-- Walking from one end to another one meets the integers that lie between them. -/
theorem mem_span_trunc_iff (hx : IsWhole x) (hy : IsWhole y) (hnear : Device.InRange near)
    (hfar : Device.InRange far) (h₁ : ofInt near ≤ x) (h₂ : y ≤ ofInt far)
    (hn : Device.InRange n) :
    x ≤ y ∧ n ∈ span (trunc x) (trunc y) ↔ x ≤ ofInt n ∧ ofInt n ≤ y := by
  have hx' (h : x ≤ y) := hx.trunc_le_iff hnear hfar h₁ (LawfulScalar.le_trans h h₂) hn
  have hy' (h : x ≤ y) := hy.le_trunc_iff hnear hfar (LawfulScalar.le_trans h₁ h) h₂ hn
  rw [mem_span]
  constructor
  · rintro ⟨h, hxn, hny⟩
    exact ⟨(hx' h).mp hxn, (hy' h).mp hny⟩
  · rintro ⟨hxn, hny⟩
    have h := LawfulScalar.le_trans hxn hny
    exact ⟨h, (hx' h).mpr hxn, (hy' h).mpr hny⟩

/-- Ends that are cut to a range lead to the integers of the range that lie between them. -/
theorem mem_span_cut_iff (hx : IsWhole x) (hy : IsWhole y) (hnx : isNumber x = true)
    (hny : isNumber y = true) (hnear : Device.InRange near) (hfar : Device.InRange far)
    (hn : near ≤ n ∧ n ≤ far) :
    maxNum x (ofInt near) ≤ minNum y (ofInt far) ∧
        n ∈ span (trunc (maxNum x (ofInt near))) (trunc (minNum y (ofInt far))) ↔
      x ≤ ofInt n ∧ ofInt n ≤ y := by
  have hrange : Device.InRange n := ⟨hnear.1.trans hn.1, hn.2.trans hfar.2⟩
  have hnnear := isNumber_ofInt (K := K) hnear
  have hnfar := isNumber_ofInt (K := K) hfar
  rw [mem_span_trunc_iff (minNum_maxNum_of hx (isWhole_ofInt hnear)).2
      (minNum_maxNum_of hy (isWhole_ofInt hfar)).1 hnear hfar (right_le_maxNum hnx hnnear)
      (minNum_le_right hny hnfar) hrange,
    maxNum_le_iff hnx hnnear, le_minNum_iff hny hnfar, LawfulScalar.ofInt_le_ofInt (.inl hnear),
    LawfulScalar.ofInt_le_ofInt (.inr hfar), and_iff_left hn.1, and_iff_left hn.2]

end Ends

end Scalar

/-- A rounded number is a coordinate of the device if its integer part is this coordinate. -/
theorem Scalar.round_beq_ofInt_iff {K : Type} [Scalar K] [LawfulRounding K] {x : K} {n : ℤ}
    (hn : Device.InRange n) :
    (round x == ofInt n) = true ↔ isNumber (round x) = true ∧ trunc (round x) = n := by
  rw [LawfulRounding.beq_iff]
  constructor
  · rintro ⟨hle, hge⟩
    obtain ⟨hle', hge'⟩ := LawfulScalar.isWhole_round x n n hn hn hge hle
    have hlow := LawfulScalar.le_trans hge hle'
    have hhigh := LawfulScalar.le_trans hge' hle
    rw [LawfulScalar.ofInt_le_ofInt (.inl hn)] at hlow
    rw [LawfulScalar.ofInt_le_ofInt (.inr hn)] at hhigh
    exact ⟨isNumber_iff.mpr (LawfulScalar.le_trans hle hge), Int.le_antisymm hhigh hlow⟩
  · rintro ⟨hnumber, rfl⟩
    exact LawfulRounding.round_of_trunc hnumber hn

end SmoothShading
