import Mathlib
import SmoothShading.Proofs.Lawful

/-!
# Extended scalars

The rational numbers with two infinite values and a value that is not a number. A quotient by zero
is one of these, and so is a difference of infinite values. The laws of scalars admit such values
(`Extended.lawfulRounding`, `Extended.lawfulDifference`): what holds by them holds for lines with
any ends and for patches with any control points.
-/

namespace SmoothShading

/-- An exact number, an infinite value or no number. -/
inductive Extended
  | nan
  | infinite (positive : Bool)
  | finite (x : ℚ)
deriving DecidableEq

namespace Extended

/-! ## Operations -/

def add : Extended → Extended → Extended
  | finite x, finite y => finite (x + y)
  | infinite s, finite _ => infinite s
  | finite _, infinite t => infinite t
  | infinite s, infinite t => if s = t then infinite s else nan
  | _, _ => nan

def neg : Extended → Extended
  | finite x => finite (-x)
  | infinite s => infinite !s
  | nan => nan

def mul : Extended → Extended → Extended
  | finite x, finite y => finite (x * y)
  | infinite s, finite y => if y = 0 then nan else infinite (s == decide (0 < y))
  | finite x, infinite t => if x = 0 then nan else infinite (t == decide (0 < x))
  | infinite s, infinite t => infinite (s == t)
  | _, _ => nan

def div : Extended → Extended → Extended
  | finite x, finite y =>
    if y = 0 then (if x = 0 then nan else infinite (0 < x)) else finite (x / y)
  | infinite s, finite y => infinite (s == decide (0 ≤ y))
  | finite _, infinite _ => finite 0
  | _, _ => nan

/-- Whether both are numbers and the first is not the greater one. -/
def le : Extended → Extended → Bool
  | finite x, finite y => x ≤ y
  | infinite s, finite _ => !s
  | finite _, infinite t => t
  | infinite s, infinite t => !s || t
  | _, _ => false

/-- Applies a map to a finite number. -/
def map (f : ℚ → ℚ) : Extended → Extended
  | finite x => finite (f x)
  | x => x

/-- The integer part, which stops at the ends of a 64-bit range. -/
def trunc : Extended → ℤ
  | finite x => max (-2 ^ 63) (min (Scalar.trunc x) (2 ^ 63 - 1))
  | infinite s => if s then 2 ^ 63 - 1 else -2 ^ 63
  | nan => 0

instance : Scalar Extended where
  add := add
  sub x y := add x (neg y)
  mul := mul
  div := div
  neg := neg
  lt x y := le x y = true ∧ ¬ le y x = true
  le x y := le x y = true
  beq x y := le x y && le y x
  ofNat n := finite n
  ofInt n := finite n
  decidableLT _ _ := inferInstanceAs (Decidable (_ ∧ _))
  decidableLE _ _ := inferInstanceAs (Decidable (_ = _))
  sqrt x := if le (finite 0) x then map Scalar.sqrt x else nan
  floor := map Scalar.floor
  ceil := map Scalar.ceil
  round := map Scalar.round
  trunc := trunc

instance : Channel Extended Extended where
  widen x := x
  narrow x := x

/-! ## Laws -/

variable {x y z : Extended}

theorem le_iff : x ≤ y ↔ le x y = true := Iff.rfl

theorem isNumber_iff_ne_nan : Scalar.isNumber x = true ↔ x ≠ nan := by
  rw [Scalar.isNumber_iff, le_iff]
  cases x with
  | nan => simp [le]
  | infinite s => simp [le]
  | finite x => simp [le]

theorem exists_round_finite_eq (x : ℚ) : ∃ n : ℤ, Scalar.round (finite x) = finite n := by
  obtain ⟨n, hn⟩ := Scalar.exists_round_eq x
  exact ⟨n, congrArg finite hn⟩

theorem trunc_finite_of_inRange {n : ℤ} (h : Device.InRange n ∨ Device.InRange (trunc (finite n))) :
    trunc (finite n) = n := by
  unfold Device.InRange Device.minCoordinate Device.maxCoordinate at h
  rw [trunc, Scalar.trunc_intCast] at h ⊢
  omega

theorem not_inRange_trunc_infinite (s : Bool) : ¬ Device.InRange (trunc (infinite s)) := by
  unfold Device.InRange Device.minCoordinate Device.maxCoordinate
  cases s <;> decide

theorem finite_le_finite_iff {x y : ℚ} : finite x ≤ finite y ↔ x ≤ y := decide_eq_true_iff

/-- A scalar between two coordinates of the device is finite, and if it was rounded, it is its own
integer part. -/
theorem isWhole_round (x : Extended) : Scalar.IsWhole (Scalar.round x) := by
  intro near far hnear hfar h₁ h₂
  cases x with
  | nan => exact absurd h₁ Bool.false_ne_true
  | infinite s =>
    cases s
    · exact absurd h₁ Bool.false_ne_true
    · exact absurd h₂ Bool.false_ne_true
  | finite x =>
    obtain ⟨n, hn⟩ := exists_round_finite_eq x
    rw [hn] at h₁ h₂ ⊢
    have hlow : near ≤ n := Int.cast_le.mp (finite_le_finite_iff.mp h₁)
    have hhigh : n ≤ far := Int.cast_le.mp (finite_le_finite_iff.mp h₂)
    have htrunc : Scalar.trunc (finite n) = n :=
      trunc_finite_of_inRange (.inl ⟨hnear.1.trans hlow, hhigh.trans hfar.2⟩)
    rw [htrunc]
    exact ⟨finite_le_finite_iff.mpr le_rfl, finite_le_finite_iff.mpr le_rfl⟩

instance lawfulRounding : LawfulRounding Extended where
  le_trans {x y z} h₁ h₂ := by
    rw [le_iff] at *
    cases x <;> cases y <;> cases z <;> grind [le]
  le_total {x y} hx hy := by
    rw [isNumber_iff_ne_nan] at hx hy
    rw [le_iff, le_iff]
    cases x <;> cases y <;> grind [le]
  lt_iff := Iff.rfl
  isNumber_of_isFinite {x} hx := by
    rw [Scalar.isFinite, isNumber_iff_ne_nan] at hx
    rw [isNumber_iff_ne_nan]
    rintro rfl
    exact hx rfl
  ofInt_le_ofInt _ := finite_le_finite_iff.trans Int.cast_le
  trunc_ofInt hn := trunc_finite_of_inRange (.inl hn)
  isWhole_round := isWhole_round
  beq_iff := Bool.and_eq_true_iff
  round_ofInt {n} _ := congrArg finite (Scalar.round_intCast n)
  round_of_trunc {x} hnumber hrange := by
    cases x with
    | nan => exact absurd rfl (isNumber_iff_ne_nan.mp hnumber)
    | infinite s => exact absurd hrange (not_inRange_trunc_infinite s)
    | finite x =>
      obtain ⟨n, hn⟩ := exists_round_finite_eq x
      rw [hn] at hrange ⊢
      have htrunc : Scalar.trunc (finite n) = n := trunc_finite_of_inRange (.inr hrange)
      rw [htrunc]
      exact ⟨finite_le_finite_iff.mpr le_rfl, finite_le_finite_iff.mpr le_rfl⟩

/-! ## Differences -/

theorem abs_finite (x : ℚ) : Scalar.abs (finite x) = finite |x| := by
  have hneg : finite x < (0 : Extended) ↔ x < 0 := by
    change (le (finite x) (finite 0) = true ∧ ¬ le (finite 0) (finite x) = true) ↔ x < 0
    rw [le, le, decide_eq_true_iff, decide_eq_true_iff, not_le, and_iff_right_of_imp le_of_lt]
  unfold Scalar.abs
  by_cases h : x < 0
  · rw [if_pos (hneg.mpr h), abs_of_neg h]
    rfl
  · rw [if_neg (fun h' => h (hneg.mp h')), abs_of_nonneg (not_lt.mp h)]

/-- Infinite values differ from all others by an infinite value or by none that is a number. -/
theorem abs_sub_eq (x y : Extended) : Scalar.abs (x - y) = Scalar.abs (y - x) := by
  cases x with
  | nan => cases y <;> rfl
  | infinite s =>
    cases y with
    | nan => rfl
    | infinite t => cases s <;> cases t <;> rfl
    | finite y => cases s <;> rfl
  | finite x =>
    cases y with
    | nan => rfl
    | infinite t => cases t <;> rfl
    | finite y =>
      change Scalar.abs (finite (x + -y)) = Scalar.abs (finite (y + -x))
      rw [abs_finite, abs_finite, ← sub_eq_add_neg, ← sub_eq_add_neg, abs_sub_comm]

instance lawfulDifference : LawfulDifference Extended where
  abs_sub_lt_comm {x y _} := by rw [abs_sub_eq x y]

end Extended

end SmoothShading
