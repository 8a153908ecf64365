import Mathlib
import SmoothShading.Device
import SmoothShading.Proofs.Exact

/-!
# Pixels and rectangles

The pixels of a rectangle are those of the device, so moving a coordinate into the range of the
device (`Device.saturate`) never moves it past a pixel of a rectangle.
-/

namespace SmoothShading

theorem mem_span {lo hi n : ℤ} : n ∈ span lo hi ↔ lo ≤ n ∧ n ≤ hi := by
  simp only [span, List.mem_map, List.mem_range]
  constructor
  · rintro ⟨i, hi, rfl⟩
    omega
  · rintro ⟨hlo, hhi⟩
    exact ⟨(n - lo).toNat, by omega, by omega⟩

theorem pairwise_span (lo hi : ℤ) : (span lo hi).Pairwise (· < ·) :=
  List.pairwise_map.mpr (List.pairwise_lt_range.imp fun h => by omega)

theorem nodup_span (lo hi : ℤ) : (span lo hi).Nodup := (pairwise_span lo hi).imp ne_of_lt

/-- Rows with the same columns have no pixel twice. -/
theorem Pixel.nodup_rows {xs ys : List ℤ} (hx : xs.Nodup) (hy : ys.Nodup) :
    (ys.flatMap fun y => xs.map fun x => (⟨x, y⟩ : Pixel)).Nodup := by
  refine List.nodup_flatMap.mpr ⟨fun y _ => hx.map fun a b h => (Pixel.mk.inj h).1, ?_⟩
  refine hy.imp fun {y₁ y₂} hne => List.disjoint_left.mpr fun q h₁ h₂ => hne ?_
  obtain ⟨x₁, -, rfl⟩ := List.mem_map.mp h₁
  obtain ⟨x₂, -, h⟩ := List.mem_map.mp h₂
  exact (Pixel.mk.inj h).2.symm

namespace Device

/-- Whether an integer is a coordinate of the device. -/
def InRange (n : ℤ) : Prop := minCoordinate ≤ n ∧ n ≤ maxCoordinate

theorem saturate_of_inRange {n : ℤ} (h : InRange n) : saturate n = n := by
  unfold InRange minCoordinate maxCoordinate at h
  unfold saturate minCoordinate maxCoordinate
  omega

theorem inRange_saturate (n : ℤ) : InRange (saturate n) := by
  unfold InRange saturate minCoordinate maxCoordinate
  omega

theorem inRange_toInt (n : Int32) : InRange n.toInt := ⟨n.le_toInt, n.toInt_le⟩

theorem saturate_le {m n : ℤ} (hn : InRange n) (h : m ≤ n) : saturate m ≤ n := by
  unfold InRange minCoordinate at hn
  unfold saturate minCoordinate
  omega

theorem le_saturate {m n : ℤ} (hn : InRange n) (h : n ≤ m) : n ≤ saturate m := by
  unfold InRange maxCoordinate at hn
  unfold saturate maxCoordinate
  omega

end Device

namespace PixelRect

theorem contains_iff {r : PixelRect} {q : Pixel} :
    r.contains q = true ↔
      (r.x.toInt ≤ q.x ∧ q.x ≤ r.maxX) ∧ r.y.toInt ≤ q.y ∧ q.y ≤ r.maxY := by
  simp only [contains, Bool.and_eq_true, decide_eq_true_eq]
  tauto

theorem inRange_of_le {start : Int32} {last n : ℤ} (hlast : Device.InRange last)
    (hlo : start.toInt ≤ n) (hhi : n ≤ last) : Device.InRange n :=
  ⟨le_trans (Device.inRange_toInt start).1 hlo, le_trans hhi hlast.2⟩

/-- A rectangle has pixels of the device only. -/
theorem inRange_of_contains {r : PixelRect} {q : Pixel} (h : r.contains q = true) :
    Device.InRange q.x ∧ Device.InRange q.y := by
  obtain ⟨⟨hx0, hx1⟩, hy0, hy1⟩ := contains_iff.mp h
  exact ⟨inRange_of_le (Device.inRange_saturate _) hx0 hx1,
    inRange_of_le (Device.inRange_saturate _) hy0 hy1⟩

/-- Whether a pixel lies in the rectangle, counted in integers that never overflow. -/
def Includes (r : PixelRect) (q : Pixel) : Prop :=
  (0 ≤ q.x - r.x.toInt ∧ q.x - r.x.toInt < r.width.toNat) ∧
    0 ≤ q.y - r.y.toInt ∧ q.y - r.y.toInt < r.height.toNat

/-- The pixels of a rectangle, row by row. -/
def pixels (r : PixelRect) : List Pixel :=
  (span r.y.toInt r.maxY).flatMap fun y => (span r.x.toInt r.maxX).map fun x => ⟨x, y⟩

theorem nodup_pixels (r : PixelRect) : r.pixels.Nodup :=
  Pixel.nodup_rows (nodup_span _ _) (nodup_span _ _)

theorem mem_pixels {r : PixelRect} {q : Pixel} : q ∈ r.pixels ↔ r.contains q = true := by
  obtain ⟨x, y⟩ := q
  simp only [pixels, List.mem_flatMap, List.mem_map, mem_span, contains_iff, Pixel.mk.injEq]
  constructor
  · rintro ⟨_, hy, _, hx, rfl, rfl⟩
    exact ⟨hx, hy⟩
  · rintro ⟨hx, hy⟩
    exact ⟨y, hy, x, hx, rfl, rfl⟩

end PixelRect

/-- A pixel of the device is the one nearest to its own sample point. -/
theorem Pixel.pixel_sample {q : Pixel} (hx : Device.InRange q.x) (hy : Device.InRange q.y) :
    (q.sample : Point ℚ).pixel = q := by
  simp only [Point.pixel, Pixel.sample, Scalar.ofInt_rat, Scalar.round_intCast,
    Scalar.trunc_intCast, Device.saturate_of_inRange hx, Device.saturate_of_inRange hy]

end SmoothShading
