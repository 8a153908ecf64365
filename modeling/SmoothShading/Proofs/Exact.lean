import Mathlib
import SmoothShading.Plane.Point

/-!
# Exact scalars

The rational numbers as scalars. No operation rounds, every value is a number, and the operations
on scalars are those of an ordered field. What the plane looks like without rounding is stated over
this instance.
-/

namespace SmoothShading

/-- The rational numbers; only square roots are not exact. -/
instance Scalar.instRat : Scalar ℚ where
  ofNat n := n
  ofInt n := n
  decidableLT := inferInstance
  decidableLE := inferInstance
  sqrt := Rat.sqrt
  floor x := ⌊x⌋
  ceil x := ⌈x⌉
  round x := (if 0 ≤ x then ⌊x + 1 / 2⌋ else ⌈x - 1 / 2⌉ : ℤ)
  trunc x := if 0 ≤ x then ⌊x⌋ else ⌈x⌉

/-- Exact colors are stored as they are computed. -/
instance Channel.instRat : Channel ℚ ℚ where
  widen x := x
  narrow x := x

namespace Scalar

/-! ## The operations of an ordered field -/

@[simp] theorem isNumber_rat (x : ℚ) : isNumber x = true := by simp [isNumber]

@[simp] theorem isFinite_rat (x : ℚ) : isFinite x = true := isNumber_rat _

@[simp] theorem minNum_rat (x y : ℚ) : minNum x y = min x y := by
  simp only [minNum, isNumber_rat, if_true]
  split
  · next h => exact (min_eq_right (le_of_lt h)).symm
  · next h => exact (min_eq_left (not_lt.mp h)).symm

@[simp] theorem maxNum_rat (x y : ℚ) : maxNum x y = max x y := by
  simp only [maxNum, isNumber_rat, if_true]
  split
  · next h => exact (max_eq_right (le_of_lt h)).symm
  · next h => exact (max_eq_left (not_lt.mp h)).symm

@[simp] theorem abs_rat (x : ℚ) : Scalar.abs x = |x| := by
  unfold Scalar.abs
  split
  · next h => exact (abs_of_neg h).symm
  · next h => exact (abs_of_nonneg (not_lt.mp h)).symm

@[simp] theorem clamp_rat (lo hi x : ℚ) : clamp lo hi x = min (max x lo) hi := by
  have hlo : (if x < lo then lo else x) = max x lo := by
    split
    · next h => exact (max_eq_right h.le).symm
    · next h => exact (max_eq_left (not_lt.mp h)).symm
  simp only [clamp, hlo]
  split
  · next h => exact (min_eq_right h.le).symm
  · next h => exact (min_eq_left (not_lt.mp h)).symm

@[simp] theorem ofInt_rat (n : ℤ) : (Scalar.ofInt n : ℚ) = n := rfl

@[simp] theorem ofNat_rat (n : ℕ) : (Scalar.ofNat n : ℚ) = n := rfl

/-! ## Rounding -/

@[simp] theorem floor_rat (x : ℚ) : Scalar.floor x = (⌊x⌋ : ℚ) := rfl

@[simp] theorem ceil_rat (x : ℚ) : Scalar.ceil x = (⌈x⌉ : ℚ) := rfl

@[simp] theorem trunc_intCast (n : ℤ) : Scalar.trunc (n : ℚ) = n := by
  change (if (0 : ℚ) ≤ n then ⌊(n : ℚ)⌋ else ⌈(n : ℚ)⌉) = n
  simp

@[simp] theorem round_intCast (n : ℤ) : Scalar.round (n : ℚ) = n := by
  change ((if (0 : ℚ) ≤ n then ⌊(n : ℚ) + 1 / 2⌋ else ⌈(n : ℚ) - 1 / 2⌉ : ℤ) : ℚ) = n
  rw [Int.cast_inj]
  split
  · rw [Int.floor_eq_iff]
    constructor <;> linarith
  · rw [Int.ceil_eq_iff]
    constructor <;> linarith

/-- What was rounded is an integer. -/
theorem exists_round_eq (x : ℚ) : ∃ n : ℤ, Scalar.round x = (n : ℚ) := ⟨_, rfl⟩

theorem round_of_nonneg {x : ℚ} (h : 0 ≤ x) : Scalar.round x = (⌊x + 1 / 2⌋ : ℚ) := by
  change ((if 0 ≤ x then ⌊x + 1 / 2⌋ else ⌈x - 1 / 2⌉ : ℤ) : ℚ) = _
  rw [if_pos h]

theorem round_of_neg {x : ℚ} (h : x < 0) : Scalar.round x = (⌈x - 1 / 2⌉ : ℚ) := by
  change ((if 0 ≤ x then ⌊x + 1 / 2⌋ else ⌈x - 1 / 2⌉ : ℤ) : ℚ) = _
  rw [if_neg (not_le.mpr h)]

theorem abs_round_sub_le (x : ℚ) : |Scalar.round x - x| ≤ 1 / 2 := by
  rw [abs_le]
  rcases le_or_gt 0 x with h | h
  · rw [round_of_nonneg h]
    have hle := Int.floor_le (x + 1 / 2)
    have hlt := Int.lt_floor_add_one (x + 1 / 2)
    constructor <;> linarith
  · rw [round_of_neg h]
    have hle := Int.le_ceil (x - 1 / 2)
    have hlt := Int.ceil_lt_add_one (x - 1 / 2)
    constructor <;> linarith

theorem round_mono {x y : ℚ} (h : x ≤ y) : Scalar.round x ≤ Scalar.round y := by
  rcases le_or_gt 0 x with hx | hx
  · rw [round_of_nonneg hx, round_of_nonneg (hx.trans h), Int.cast_le]
    exact Int.floor_mono (by linarith)
  · rw [round_of_neg hx]
    rcases le_or_gt 0 y with hy | hy
    · rw [round_of_nonneg hy, Int.cast_le]
      calc ⌈x - 1 / 2⌉ ≤ 0 := Int.ceil_le.mpr (by push_cast; linarith)
        _ ≤ ⌊y + 1 / 2⌋ := Int.floor_nonneg.mpr (by linarith)
    · rw [round_of_neg hy, Int.cast_le]
      exact Int.ceil_mono (by linarith)

theorem trunc_round_mono {x y : ℚ} (h : x ≤ y) :
    Scalar.trunc (Scalar.round x) ≤ Scalar.trunc (Scalar.round y) := by
  obtain ⟨m, hm⟩ := exists_round_eq x
  obtain ⟨n, hn⟩ := exists_round_eq y
  have hle := round_mono h
  rw [hm, hn, Int.cast_le] at hle
  rwa [hm, hn, trunc_intCast, trunc_intCast]

/-- A rounded number that is not negative counts something. -/
theorem natCast_trunc_round {x : ℚ} (h : 0 ≤ x) :
    ((Scalar.trunc (Scalar.round x)).toNat : ℚ) = Scalar.round x := by
  rw [round_of_nonneg h, trunc_intCast]
  have hfloor : 0 ≤ ⌊x + 1 / 2⌋ := Int.floor_nonneg.mpr (by linarith)
  exact_mod_cast Int.toNat_of_nonneg hfloor

end Scalar

/-! ## Quotients by zero -/

/-- The rational numbers with quotients by zero of any kind. What is the same over all of them is
computed without a division by zero. -/
abbrev Scalar.ratDividing (byZero : ℚ → ℚ) : Scalar ℚ :=
  { Scalar.instRat with div := fun x y => if y = 0 then byZero x else x / y }

theorem Scalar.ratDividing_div (byZero : ℚ → ℚ) {x y : ℚ} (h : y ≠ 0) :
    (ratDividing byZero).div x y = x / y := if_neg h

/-! ## Coordinates -/

attribute [ext] Point

namespace Point

variable {K : Type} [Scalar K]

@[simp] theorem add_x (p q : Point K) : (p + q).x = p.x + q.x := rfl

@[simp] theorem add_y (p q : Point K) : (p + q).y = p.y + q.y := rfl

@[simp] theorem sub_x (p q : Point K) : (p - q).x = p.x - q.x := rfl

@[simp] theorem sub_y (p q : Point K) : (p - q).y = p.y - q.y := rfl

@[simp] theorem mul_x (p : Point K) (s : K) : (p * s).x = p.x * s := rfl

@[simp] theorem mul_y (p : Point K) (s : K) : (p * s).y = p.y * s := rfl

end Point

end SmoothShading
