import Mathlib
import SmoothShading.Proofs.Mesh.Line

/-!
# Lines are paths

A line within the rectangle leads from one of its ends to the other (`Line.IsPath`), pixel by pixel
and without a gap, and it has the same pixels in both directions (`Line.isPath_pixels_between`).

A half is rounded away from zero, so the halves on both sides of zero become integers two apart
although they differ by one. But a line that is no diagonal moves aside by less than one with each
step (`Line.abs_slope_le_one`), and then its pixels do by at most one
(`Scalar.abs_round_sub_round_le`). A diagonal comes by integers only.
-/

namespace SmoothShading

/-! ## Rounding and spans -/

/-- Numbers that differ by less than one are rounded to the same integer or to neighbours. -/
theorem Scalar.abs_round_sub_round_le {x y : ℚ} (h : |x - y| < 1) :
    |Scalar.round x - Scalar.round y| ≤ 1 := by
  obtain ⟨m, hm⟩ := exists_round_eq x
  obtain ⟨n, hn⟩ := exists_round_eq y
  have hx := abs_le.mp (abs_round_sub_le x)
  have hy := abs_le.mp (abs_round_sub_le y)
  have hxy := abs_lt.mp h
  rw [hm] at hx
  rw [hn] at hy
  have hlt : ((m - n : ℤ) : ℚ) < (2 : ℤ) := by push_cast; linarith
  have hgt : ((-2 : ℤ) : ℚ) < (m - n : ℤ) := by push_cast; linarith
  rw [Int.cast_lt] at hlt hgt
  have habs : |m - n| ≤ 1 := abs_le.mpr ⟨by omega, by omega⟩
  rw [hm, hn]
  exact_mod_cast habs

section Span

variable {lo hi : ℤ}

theorem length_span (lo hi : ℤ) : (span lo hi).length = (hi - lo + 1).toNat := by
  rw [span, List.length_map, List.length_range]

theorem head?_span (h : lo ≤ hi) : (span lo hi).head? = some lo := by
  rw [span, List.head?_map, List.head?_range, if_neg (by omega), Option.map_some, Nat.cast_zero,
    add_zero]

theorem getLast?_span (h : lo ≤ hi) : (span lo hi).getLast? = some hi := by
  rw [span, List.getLast?_map, List.getLast?_range, if_neg (by omega), Option.map_some,
    Option.some_inj]
  omega

theorem isChain_span (lo hi : ℤ) : (span lo hi).IsChain fun m n => n = m + 1 := by
  rw [span, List.isChain_map, List.isChain_range]
  intro i hi
  push_cast
  ring

end Span

namespace Line

open Scalar

/-! ## Lines that are turned around -/

/-- The same line from its end to its start. -/
def reverse {K C : Type} (l : Line K C) : Line K C := ⟨l.stop, l.start⟩

theorem start_reverse {K C : Type} (l : Line K C) : l.reverse.start = l.stop := rfl

theorem stop_reverse {K C : Type} (l : Line K C) : l.reverse.stop = l.start := rfl

variable {C : Type}

section Slope

variable (l : Line ℚ C)

theorem isSteep_reverse : l.reverse.isSteep = l.isSteep := by
  simp only [isSteep, extent, start_reverse, stop_reverse, Point.sub_x, Point.sub_y, abs_rat]
  rw [abs_sub_comm, abs_sub_comm l.start.point.y]

theorem along_reverse (p : Point ℚ) : l.reverse.along p = l.along p := by
  rw [along, along, isSteep_reverse]

theorem across_reverse (p : Point ℚ) : l.reverse.across p = l.across p := by
  rw [across, across, isSteep_reverse]

theorem step_reverse (q : Pixel) : l.reverse.step q = l.step q := by
  rw [step, step, isSteep_reverse]

theorem lane_reverse (q : Pixel) : l.reverse.lane q = l.lane q := by
  rw [lane, lane, isSteep_reverse]

/-- A line has the greater extent along the walk. -/
theorem abs_across_sub_le :
    |l.across l.stop.point - l.across l.start.point| ≤
      |l.along l.stop.point - l.along l.start.point| := by
  have hsteep : l.isSteep = true ↔ |l.extent.x| < |l.extent.y| := by
    simp only [isSteep, abs_rat, decide_eq_true_eq]
  unfold across along
  cases h : l.isSteep
  · exact not_lt.mp fun hlt => Bool.false_ne_true (h.symm.trans (hsteep.mpr hlt))
  · exact (hsteep.mp h).le

/-- How far the line moves aside with each step. -/
def slope : ℚ :=
  (l.across l.stop.point - l.across l.start.point) / (l.along l.stop.point - l.along l.start.point)

theorem abs_slope_le_one : |l.slope| ≤ 1 := by
  rw [slope, abs_div]
  exact div_le_one_of_le₀ l.abs_across_sub_le (abs_nonneg _)

/-- Where the line is at the coordinate `m` of the walk, before it is rounded. -/
def crossing (m : ℚ) : ℚ := l.across l.start.point + (m - l.along l.start.point) * l.slope

theorem crossing_start : l.crossing (l.along l.start.point) = l.across l.start.point := by
  rw [crossing, sub_self, zero_mul, add_zero]

theorem crossing_stop : l.crossing (l.along l.stop.point) = l.across l.stop.point := by
  have hle := l.abs_across_sub_le
  rw [crossing, slope]
  by_cases h : l.along l.stop.point - l.along l.start.point = 0
  · rw [h, abs_zero, abs_nonpos_iff] at hle
    rw [h, hle, zero_mul, add_zero, sub_eq_zero.mp hle]
  · rw [mul_div_cancel₀ _ h, add_sub_cancel]

theorem crossing_mono (hslope : 0 ≤ l.slope) {x y : ℚ} (h : x ≤ y) :
    l.crossing x ≤ l.crossing y := by
  unfold crossing
  gcongr

theorem crossing_anti (hslope : l.slope ≤ 0) {x y : ℚ} (h : x ≤ y) :
    l.crossing y ≤ l.crossing x :=
  add_le_add_right (mul_le_mul_of_nonpos_right (sub_le_sub_right h _) hslope) _

theorem crossing_reverse (m : ℚ) : l.reverse.crossing m = l.crossing m := by
  have hslope : l.reverse.slope = l.slope := by
    simp only [slope, across_reverse, along_reverse, start_reverse, stop_reverse]
    rw [← neg_sub, ← neg_sub (l.along l.stop.point), neg_div_neg_eq]
  have hstop := l.crossing_stop
  simp only [crossing, hslope, across_reverse, along_reverse, start_reverse] at hstop ⊢
  linarith

theorem acrossAt_eq_crossing (m : ℚ) :
    l.acrossAt m =
      if l.along l.start.point = l.along l.stop.point then l.across l.start.point
      else Scalar.round (l.crossing m) := by
  simp only [acrossAt, crossing, slope, beq_iff_eq, mul_div_assoc]

theorem acrossAt_reverse (m : ℚ) : l.reverse.acrossAt m = l.acrossAt m := by
  simp only [acrossAt_eq_crossing, crossing_reverse, along_reverse, across_reverse, start_reverse,
    stop_reverse]
  by_cases h : l.along l.start.point = l.along l.stop.point
  · rw [if_pos h, if_pos h.symm, ← l.crossing_stop, ← h, l.crossing_start]
  · rw [if_neg h, if_neg (Ne.symm h)]

/-- A line has the same pixels in both directions. -/
theorem pixels_reverse (bounds : PixelRect) : l.reverse.pixels bounds = l.pixels bounds := by
  have hfirst : l.reverse.first = l.first := by
    simp only [first, along_reverse, start_reverse, stop_reverse, minNum_rat, min_comm]
  have hlast : l.reverse.last = l.last := by
    simp only [last, along_reverse, start_reverse, stop_reverse, maxNum_rat, max_comm]
  have hpixelAt (m : ℤ) : l.reverse.pixelAt? m = l.pixelAt? m := by
    simp only [pixelAt?, acrossAt_reverse, isSteep_reverse]
  have hfinite : l.reverse.isFinite = l.isFinite := Bool.and_comm _ _
  simp only [pixels, hfirst, hlast, hfinite, isSteep_reverse, funext hpixelAt]

end Slope

/-! ## The pixel of each step -/

/-- The pixel of the walk at the coordinate `m`. -/
def pixelOn (l : Line ℚ C) (m : ℤ) : Pixel :=
  if l.isSteep then ⟨trunc (l.acrossAt m), m⟩ else ⟨m, trunc (l.acrossAt m)⟩

/-- Whether the line has its ends at two pixels. -/
structure Joins (l : Line ℚ C) (a b : Pixel) : Prop where
  start : l.start.point = a.sample
  stop : l.stop.point = b.sample

variable {l : Line ℚ C} {a b p q : Pixel} {m n : ℤ}

theorem pixelAt?_eq_some (l : Line ℚ C) (m : ℤ) : l.pixelAt? m = some (l.pixelOn m) := by
  simp only [pixelAt?, pixelOn, isNumber_rat, if_true, ofInt_rat]

theorem step_pixelOn (l : Line ℚ C) (m : ℤ) : l.step (l.pixelOn m) = m := by
  unfold step pixelOn
  cases l.isSteep
  · rfl
  · rfl

theorem lane_pixelOn (l : Line ℚ C) (m : ℤ) : l.lane (l.pixelOn m) = trunc (l.acrossAt m) := by
  unfold lane pixelOn
  cases l.isSteep
  · rfl
  · rfl

theorem pixelOn_step_eq_iff :
    l.pixelOn (l.step q) = q ↔ l.lane (l.pixelOn (l.step q)) = l.lane q := by
  have hsome := pixelAt?_step_eq_some_iff (l := l) (q := q)
  rwa [pixelAt?_eq_some, Option.some_inj, isNumber_rat, eq_self, true_and, ofInt_rat,
    ← lane_pixelOn] at hsome

/-- A rectangle that contains two pixels contains the pixels between them. -/
theorem contains_of_between {bounds : PixelRect} (ha : bounds.contains a = true)
    (hb : bounds.contains b = true) (hstep : l.step a ≤ l.step q ∧ l.step q ≤ l.step b)
    (hlane : min (l.lane a) (l.lane b) ≤ l.lane q ∧ l.lane q ≤ max (l.lane a) (l.lane b)) :
    bounds.contains q = true := by
  rw [PixelRect.contains_iff] at ha hb ⊢
  unfold step at hstep
  unfold lane at hlane
  cases h : l.isSteep
  · simp only [h, Bool.false_eq_true, if_false] at hstep hlane
    omega
  · simp only [h, if_true] at hstep hlane
    omega

namespace Joins

variable (h : l.Joins a b)

include h

theorem along_start : l.along l.start.point = l.step a := by
  rw [h.start, along_sample, ofInt_rat]

theorem along_stop : l.along l.stop.point = l.step b := by
  rw [h.stop, along_sample, ofInt_rat]

theorem across_start : l.across l.start.point = l.lane a := by
  rw [h.start, across_sample, ofInt_rat]

theorem across_stop : l.across l.stop.point = l.lane b := by
  rw [h.stop, across_sample, ofInt_rat]

theorem abs_step_sub_eq_max : |l.step b - l.step a| = max |b.x - a.x| |b.y - a.y| := by
  have hle := l.abs_across_sub_le
  rw [h.along_start, h.along_stop, h.across_start, h.across_stop] at hle
  have hle : |l.lane b - l.lane a| ≤ |l.step b - l.step a| := by exact_mod_cast hle
  unfold step lane at *
  cases hsteep : l.isSteep
  · simp only [hsteep, Bool.false_eq_true, if_false] at hle ⊢
    exact (max_eq_left hle).symm
  · simp only [hsteep, if_true] at hle ⊢
    exact (max_eq_right hle).symm

/-- The pixel of a step is the one nearest to the line. -/
theorem cast_lane_pixelOn (m : ℤ) :
    ((l.lane (l.pixelOn m) : ℤ) : ℚ) = Scalar.round (l.crossing m) := by
  have hround : l.acrossAt m = Scalar.round (l.crossing m) := by
    rw [acrossAt_eq_crossing]
    split
    · next hsame =>
      have hslope : l.slope = 0 := by rw [slope, hsame, sub_self, div_zero]
      rw [crossing, hslope, mul_zero, add_zero, h.across_start, round_intCast]
    · rfl
  obtain ⟨n, hn⟩ := exists_round_eq (l.crossing m)
  rw [lane_pixelOn, hround, hn, trunc_intCast]

theorem pixelOn_start : l.pixelOn (l.step a) = a := by
  rw [pixelOn_step_eq_iff]
  have hlane := h.cast_lane_pixelOn (l.step a)
  rwa [← h.along_start, crossing_start, h.across_start, round_intCast, Int.cast_inj] at hlane

theorem pixelOn_stop : l.pixelOn (l.step b) = b := by
  rw [pixelOn_step_eq_iff]
  have hlane := h.cast_lane_pixelOn (l.step b)
  rwa [← h.along_stop, crossing_stop, h.across_stop, round_intCast, Int.cast_inj] at hlane

theorem lane_pixelOn_le (hle : l.crossing m ≤ l.crossing n) :
    l.lane (l.pixelOn m) ≤ l.lane (l.pixelOn n) := by
  have hround := round_mono hle
  rwa [← h.cast_lane_pixelOn, ← h.cast_lane_pixelOn, Int.cast_le] at hround

/-- Between the ends of a line its other coordinate lies between theirs. -/
theorem lane_pixelOn_between (hm : l.step a ≤ m ∧ m ≤ l.step b) :
    min (l.lane a) (l.lane b) ≤ l.lane (l.pixelOn m) ∧
      l.lane (l.pixelOn m) ≤ max (l.lane a) (l.lane b) := by
  have ha : ((l.step a : ℤ) : ℚ) ≤ m := Int.cast_le.mpr hm.1
  have hb : (m : ℚ) ≤ l.step b := Int.cast_le.mpr hm.2
  rcases le_total 0 l.slope with hslope | hslope
  · have hlow := h.lane_pixelOn_le (l.crossing_mono hslope ha)
    have hhigh := h.lane_pixelOn_le (l.crossing_mono hslope hb)
    rw [h.pixelOn_start] at hlow
    rw [h.pixelOn_stop] at hhigh
    exact ⟨min_le_of_left_le hlow, le_max_of_le_right hhigh⟩
  · have hhigh := h.lane_pixelOn_le (l.crossing_anti hslope ha)
    have hlow := h.lane_pixelOn_le (l.crossing_anti hslope hb)
    rw [h.pixelOn_start] at hhigh
    rw [h.pixelOn_stop] at hlow
    exact ⟨min_le_of_right_le hlow, le_max_of_le_left hhigh⟩

/-- A line that moves aside by an integer with each step stays on the integers. -/
theorem exists_crossing_eq {s : ℤ} (hs : l.slope = s) (m : ℤ) : ∃ k : ℤ, l.crossing m = k := by
  refine ⟨l.lane a + (m - l.step a) * s, ?_⟩
  rw [crossing, h.across_start, h.along_start, hs]
  push_cast
  rfl

/-- With each step the other coordinate changes by one at most. -/
theorem abs_lane_sub_le_one (m : ℤ) :
    |l.lane (l.pixelOn (m + 1)) - l.lane (l.pixelOn m)| ≤ 1 := by
  have hnext : l.crossing (m + 1 : ℤ) = l.crossing m + l.slope := by
    simp only [crossing]
    push_cast
    ring
  have hround : |Scalar.round (l.crossing (m + 1 : ℤ)) - Scalar.round (l.crossing m)| ≤ 1 := by
    rcases l.abs_slope_le_one.lt_or_eq with hlt | heq
    · exact abs_round_sub_round_le (by rwa [hnext, add_sub_cancel_left])
    · obtain ⟨s, hs⟩ : ∃ s : ℤ, l.slope = s := by
        rcases eq_or_eq_neg_of_abs_eq heq with hone | hone
        · exact ⟨1, by rw [hone, Int.cast_one]⟩
        · exact ⟨-1, by rw [hone, Int.cast_neg, Int.cast_one]⟩
      obtain ⟨k, hk⟩ := h.exists_crossing_eq hs m
      rw [hnext, hk, hs, ← Int.cast_add, round_intCast, round_intCast, Int.cast_add,
        add_sub_cancel_left, ← hs]
      exact heq.le
  rw [← h.cast_lane_pixelOn, ← h.cast_lane_pixelOn] at hround
  exact_mod_cast hround

variable {bounds : PixelRect} (hle : l.step a ≤ l.step b) (ha : bounds.contains a = true)
  (hb : bounds.contains b = true)

include hle ha hb

/-- A rectangle around both ends neither cuts the walk short nor leaves out a pixel. -/
theorem pixels_eq_map : l.pixels bounds = (span (l.step a) (l.step b)).map l.pixelOn := by
  obtain ⟨-, hnear, -⟩ := l.step_of_contains ha
  obtain ⟨-, -, hfar⟩ := l.step_of_contains hb
  have hfirst : l.first = l.step a := by
    rw [first, h.along_start, h.along_stop, minNum_rat, min_eq_left (Int.cast_le.mpr hle)]
  have hlast : l.last = l.step b := by
    rw [last, h.along_start, h.along_stop, maxNum_rat, max_eq_right (Int.cast_le.mpr hle)]
  have hfinite : l.isFinite = true := by
    simp only [isFinite, Point.isFinite, isFinite_rat, Bool.and_self]
  have hpixelAt : l.pixelAt? = fun m => some (l.pixelOn m) := funext l.pixelAt?_eq_some
  unfold pixels
  simp only [hfirst, hlast, hfinite, hpixelAt, maxNum_rat, minNum_rat, ofInt_rat]
  rw [max_eq_left (Int.cast_le.mpr hnear), min_eq_left (Int.cast_le.mpr hfar), trunc_intCast,
    trunc_intCast, if_pos (by simpa using hle)]
  rw [List.filterMap_eq_map', List.filter_eq_self]
  rintro q hq
  obtain ⟨m, hm, rfl⟩ := List.mem_map.mp hq
  rw [mem_span] at hm
  exact contains_of_between ha hb (by rwa [step_pixelOn]) (h.lane_pixelOn_between hm)

end Joins

/-! ## Paths -/

/-- Whether some pixels lead from one pixel to another: every step goes on along the line by one and
moves aside by one at most. -/
structure IsPath (l : Line ℚ C) (a b : Pixel) (path : List Pixel) : Prop where
  head : path.head? = some a
  last : path.getLast? = some b
  length : (path.length : ℤ) = max |b.x - a.x| |b.y - a.y| + 1
  chain : path.IsChain fun p q => l.step q = l.step p + 1 ∧ |l.lane q - l.lane p| ≤ 1

theorem IsPath.of_reverse {path : List Pixel} (h : l.reverse.IsPath a b path) :
    l.IsPath a b path where
  head := h.head
  last := h.last
  length := h.length
  chain := by simpa only [step_reverse, lane_reverse] using h.chain

theorem Joins.reverse (h : l.Joins a b) : l.reverse.Joins b a := ⟨h.stop, h.start⟩

/-- A line that is walked from its start to its end is a path. -/
theorem Joins.isPath_pixels (h : l.Joins a b) {bounds : PixelRect} (hle : l.step a ≤ l.step b)
    (ha : bounds.contains a = true) (hb : bounds.contains b = true) :
    l.IsPath a b (l.pixels bounds) := by
  rw [h.pixels_eq_map hle ha hb]
  constructor
  · rw [List.head?_map, head?_span hle, Option.map_some, h.pixelOn_start]
  · rw [List.getLast?_map, getLast?_span hle, Option.map_some, h.pixelOn_stop]
  · have hlength := abs_of_nonneg (sub_nonneg.mpr hle)
    rw [List.length_map, length_span, ← h.abs_step_sub_eq_max, hlength]
    omega
  · refine List.isChain_map_of_isChain _ ?_ (isChain_span _ _)
    rintro m n rfl
    exact ⟨by rw [step_pixelOn, step_pixelOn], h.abs_lane_sub_le_one m⟩

/-- Within a rectangle that contains both ends, a line is a path from one of them to the other, and
it is the same path in both directions. -/
theorem isPath_pixels_between (v w : Vertex ℚ C) {a b : Pixel} (ha : v.point.round = a.sample)
    (hb : w.point.round = b.sample) {bounds : PixelRect} (hbounds : bounds.contains a = true)
    (hbounds' : bounds.contains b = true) :
    let l := between v w
    let path := l.pixels bounds
    (l.IsPath a b path ∨ l.IsPath b a path) ∧ (between w v).pixels bounds = path := by
  intro l path
  have h : l.Joins a b := ⟨ha, hb⟩
  refine ⟨?_, l.pixels_reverse bounds⟩
  rcases le_total (l.step a) (l.step b) with hle | hle
  · exact .inl (h.isPath_pixels hle hbounds hbounds')
  · have hle' : l.reverse.step b ≤ l.reverse.step a := by rwa [step_reverse, step_reverse]
    have hpath := (h.reverse.isPath_pixels hle' hbounds' hbounds).of_reverse
    rw [pixels_reverse] at hpath
    exact .inr hpath

/-- A steep line with a half on either side of zero, which are rounded to integers two apart. The
pixel between them is the one at zero. -/
theorem isPath_pixels_between_steep :
    let v : Vertex ℚ ℚ := ⟨⟨7 / 5, -3⟩, [0]⟩
    let w : Vertex ℚ ℚ := ⟨⟨-1 / 2, 1⟩, [1]⟩
    let a : Pixel := ⟨1, -3⟩
    let b : Pixel := ⟨-1, 1⟩
    let bounds : PixelRect := ⟨-3, -3, 6, 6⟩
    let path : List Pixel := [a, ⟨1, -2⟩, ⟨0, -1⟩, ⟨-1, 0⟩, b]
    (v.point.round = a.sample ∧ w.point.round = b.sample ∧ bounds.contains a = true ∧
        bounds.contains b = true) ∧
      (between v w).IsPath a b path ∧ (between w v).pixels bounds = path := by
  intro v w a b bounds path
  have ha : v.point.round = a.sample := by
    simp only [v, a]
    cbv
  have hb : w.point.round = b.sample := by
    simp only [w, b]
    cbv
  have hcontains : bounds.contains a = true ∧ bounds.contains b = true := by decide
  have hpixels : (between v w).pixels bounds = path := by
    simp only [v, w, bounds, path, a, b]
    cbv
  obtain ⟨hpath, hreverse⟩ := isPath_pixels_between v w ha hb hcontains.1 hcontains.2
  rw [hpixels] at hpath hreverse
  refine ⟨⟨ha, hb, hcontains⟩, ?_, hreverse⟩
  rcases hpath with hpath | hpath
  · exact hpath
  · exact absurd hpath.head (by decide)

end Line

end SmoothShading
