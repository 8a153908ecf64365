import Mathlib
import SmoothShading.Mesh.Line
import SmoothShading.Proofs.Extended

/-!
# The pixels of a line

A rectangle cuts the walk along a line short, but it does not bend it: within the rectangle the walk
comes by the same pixels as without (`Line.mem_pixels_iff_reaches`). This takes ends with integer
coordinates, as `Line.between` has them: then the walk starts and stops at integers, also where the
rectangle cuts it short.

These are the pixels that belong to the whole line (`Line.pixels_between`).
-/

namespace SmoothShading

namespace Line

open Scalar

/-! ## Walking within a rectangle -/

section Walk

variable {K C : Type} [Scalar K] {l : Line K C} {q : Pixel}

/-- The coordinate of a pixel along the walk. -/
def step (l : Line K C) (q : Pixel) : ℤ := if l.isSteep then q.y else q.x

/-- The other coordinate of a pixel. -/
def lane (l : Line K C) (q : Pixel) : ℤ := if l.isSteep then q.x else q.y

/-- Whether the walk that no rectangle cuts short comes by a pixel. -/
def Reaches (l : Line K C) (q : Pixel) : Prop :=
  l.isFinite = true ∧ (l.first ≤ ofInt (l.step q) ∧ ofInt (l.step q) ≤ l.last) ∧
    l.pixelAt? (l.step q) = some q

/-- Whether the walk goes from an integer to an integer. -/
def IsRounded (l : Line K C) : Prop :=
  IsWhole (l.along l.start.point) ∧ IsWhole (l.along l.stop.point)

theorem along_sample (l : Line K C) (q : Pixel) : l.along q.sample = ofInt (l.step q) := by
  unfold along step
  cases l.isSteep
  · rfl
  · rfl

theorem across_sample (l : Line K C) (q : Pixel) : l.across q.sample = ofInt (l.lane q) := by
  unfold across lane
  cases l.isSteep
  · rfl
  · rfl

theorem pixelAt?_step_eq_some_iff :
    l.pixelAt? (l.step q) = some q ↔
      isNumber (l.acrossAt (ofInt (l.step q))) = true ∧
        trunc (l.acrossAt (ofInt (l.step q))) = l.lane q := by
  obtain ⟨x, y⟩ := q
  unfold pixelAt?
  generalize l.acrossAt (ofInt (l.step ⟨x, y⟩)) = n
  dsimp only
  cases hn : isNumber n
  · simp
  · unfold step lane
    cases l.isSteep
    · simp
    · simp

theorem eq_step_of_pixelAt? {m : ℤ} (h : l.pixelAt? m = some q) : m = l.step q := by
  unfold pixelAt? at h
  unfold step
  dsimp only at h
  split at h
  · cases hsteep : l.isSteep
    · rw [hsteep] at h
      cases h
      rfl
    · rw [hsteep] at h
      cases h
      rfl
  · cases h

/-- The walk has a direction. -/
theorem pairwise_step_pixels (l : Line K C) (bounds : PixelRect) :
    (l.pixels bounds).Pairwise fun p q => l.step p < l.step q := by
  unfold pixels
  extract_lets lo hi
  split
  · refine (List.Pairwise.filterMap _ ?_ (pairwise_span _ _)).filter _
    intro m n hmn p hp q hq
    rwa [← eq_step_of_pixelAt? hp, ← eq_step_of_pixelAt? hq]
  · exact .nil

theorem nodup_pixels (l : Line K C) (bounds : PixelRect) : (l.pixels bounds).Nodup :=
  (l.pairwise_step_pixels bounds).imp fun hlt heq => hlt.ne (congrArg l.step heq)

theorem contains_of_mem_pixels {bounds : PixelRect} (h : q ∈ l.pixels bounds) :
    bounds.contains q = true := by
  unfold pixels at h
  rw [List.mem_ite_nil_right, List.mem_filter] at h
  exact h.2.2

/-- The range of coordinates along the walk that a rectangle has. -/
theorem step_of_contains (l : Line K C) {bounds : PixelRect} (h : bounds.contains q = true) :
    let near := if l.isSteep then bounds.y.toInt else bounds.x.toInt
    let far := if l.isSteep then bounds.maxY else bounds.maxX
    (Device.InRange near ∧ Device.InRange far) ∧ near ≤ l.step q ∧ l.step q ≤ far := by
  obtain ⟨hx, hy⟩ := PixelRect.contains_iff.mp h
  unfold step
  cases l.isSteep
  · exact ⟨⟨Device.inRange_toInt _, Device.inRange_saturate _⟩, hx⟩
  · exact ⟨⟨Device.inRange_toInt _, Device.inRange_saturate _⟩, hy⟩

variable [LawfulScalar K]

theorem isNumber_along (l : Line K C) {p : Point K} (h : p.isFinite = true) :
    isNumber (l.along p) = true := by
  obtain ⟨hx, hy⟩ := Bool.and_eq_true_iff.mp h
  unfold along
  cases l.isSteep
  · exact LawfulScalar.isNumber_of_isFinite hx
  · exact LawfulScalar.isNumber_of_isFinite hy

theorem isRounded_between (v w : Vertex K C) : (between v w).IsRounded := by
  have hround (l : Line K C) (p : Point K) : IsWhole (l.along p.round) := by
    unfold along
    cases l.isSteep
    · exact LawfulScalar.isWhole_round p.x
    · exact LawfulScalar.isWhole_round p.y
  exact ⟨hround _ v.point, hround _ w.point⟩

/-- Cut to a range, the walk steps on the coordinates of the range that it steps on without. -/
theorem step_mem_span_iff (hl : l.IsRounded) (hfinite : l.isFinite = true) {near far : ℤ}
    (hnear : Device.InRange near) (hfar : Device.InRange far)
    (hq : near ≤ l.step q ∧ l.step q ≤ far) :
    maxNum l.first (ofInt near) ≤ minNum l.last (ofInt far) ∧
        l.step q ∈ span (trunc (maxNum l.first (ofInt near))) (trunc (minNum l.last (ofInt far))) ↔
      l.first ≤ ofInt (l.step q) ∧ ofInt (l.step q) ≤ l.last := by
  obtain ⟨hstart, hstop⟩ := Bool.and_eq_true_iff.mp hfinite
  have hnumber := minNum_maxNum_of (P := (isNumber · = true)) (l.isNumber_along hstart)
    (l.isNumber_along hstop)
  have hwhole := minNum_maxNum_of hl.1 hl.2
  exact mem_span_cut_iff hwhole.1 hwhole.2 hnumber.1 hnumber.2 hnear hfar hq

/-- A line is walked over the pixels of the rectangle that the walk reaches without one. -/
theorem mem_pixels_iff_reaches (hl : l.IsRounded) {bounds : PixelRect} :
    q ∈ l.pixels bounds ↔ bounds.contains q = true ∧ l.Reaches q := by
  unfold pixels
  simp only [List.mem_ite_nil_right, Bool.and_eq_true, decide_eq_true_eq, List.mem_filter,
    List.mem_filterMap]
  constructor
  · rintro ⟨⟨hfinite, hle⟩, ⟨m, hm, hq⟩, hbounds⟩
    obtain rfl := eq_step_of_pixelAt? hq
    obtain ⟨⟨hnear, hfar⟩, hrange⟩ := l.step_of_contains hbounds
    exact ⟨hbounds, hfinite, (step_mem_span_iff hl hfinite hnear hfar hrange).mp ⟨hle, hm⟩, hq⟩
  · rintro ⟨hbounds, hfinite, hends, hq⟩
    obtain ⟨⟨hnear, hfar⟩, hrange⟩ := l.step_of_contains hbounds
    obtain ⟨hle, hm⟩ := (step_mem_span_iff hl hfinite hnear hfar hrange).mpr hends
    exact ⟨⟨hfinite, hle⟩, ⟨_, hm, hq⟩, hbounds⟩

end Walk

/-! ## Walking and deciding -/

section Between

variable {K C : Type} [Scalar K] {q : Pixel}

theorem exists_acrossAt_between_eq (v w : Vertex K C) (m : K) :
    ∃ x, (between v w).acrossAt m = Scalar.round x := by
  unfold acrossAt
  dsimp only
  split
  · unfold across
    cases (between v w).isSteep
    · exact ⟨v.point.y, rfl⟩
    · exact ⟨v.point.x, rfl⟩
  · exact ⟨_, rfl⟩

theorem inRange_lane (l : Line K C) (hx : Device.InRange q.x) (hy : Device.InRange q.y) :
    Device.InRange (l.lane q) := by
  unfold lane
  cases l.isSteep
  · exact hy
  · exact hx

variable [LawfulRounding K]

theorem round_sample (hx : Device.InRange q.x) (hy : Device.InRange q.y) :
    (q.sample : Point K).round = q.sample := by
  simp only [Point.round, Point.map, Pixel.sample, LawfulRounding.round_ofInt hx,
    LawfulRounding.round_ofInt hy]

/-- The pixels of the device that belong to a line are those that the walk comes by. -/
theorem contains_between_iff_reaches (v w : Vertex K C) (hx : Device.InRange q.x)
    (hy : Device.InRange q.y) :
    (between v w).contains q.sample = true ↔ (between v w).Reaches q := by
  obtain ⟨x, hx'⟩ := exists_acrossAt_between_eq v w (ofInt ((between v w).step q))
  unfold contains Reaches
  rw [round_sample hx hy]
  simp only [Bool.and_eq_true, decide_eq_true_eq, along_sample, across_sample,
    pixelAt?_step_eq_some_iff, and_assoc, hx', round_beq_ofInt_iff (inRange_lane _ hx hy)]

theorem mem_pixels_between_iff (v w : Vertex K C) {bounds : PixelRect} :
    q ∈ (between v w).pixels bounds ↔
      bounds.contains q = true ∧ (between v w).contains q.sample = true := by
  rw [mem_pixels_iff_reaches (isRounded_between v w)]
  refine and_congr_right fun hbounds => ?_
  obtain ⟨hx, hy⟩ := PixelRect.inRange_of_contains hbounds
  exact (contains_between_iff_reaches v w hx hy).symm

/-- The walk within a rectangle selects the pixels of the rectangle that belong to the whole line,
each of them once and by increasing coordinate along the line. -/
theorem pixels_between (v w : Vertex K C) (bounds : PixelRect) :
    let l := between v w
    (∀ q, q ∈ l.pixels bounds ↔ bounds.contains q = true ∧ l.contains q.sample = true) ∧
      (l.pixels bounds).Nodup ∧ (l.pixels bounds).Pairwise fun p q => l.step p < l.step q :=
  ⟨fun _ => mem_pixels_between_iff v w, nodup_pixels _ _, pairwise_step_pixels _ _⟩

/-- A line that leaves the device on both sides, and a line without an end. A rectangle at the right
edge of the device has three pixels of the former. -/
theorem pixels_between_huge :
    let u : Vertex Extended ℚ := ⟨⟨.finite (-3000000000), .finite 0⟩, [0]⟩
    let v : Vertex Extended ℚ := ⟨⟨.finite 3000000000, .finite 4⟩, [1]⟩
    let w : Vertex Extended ℚ := ⟨⟨.infinite true, .finite 4⟩, [1]⟩
    let bounds : PixelRect := ⟨2147483644, 0, 10, 10⟩
    let q : Pixel := ⟨2147483646, 3⟩
    (between u v).pixels bounds = [⟨2147483644, 3⟩, ⟨2147483645, 3⟩, q] ∧
      (between u v).contains q.sample = true ∧ (between u w).contains q.sample = false := by
  intro u v w bounds q
  have hpixels : (between u v).pixels bounds = [⟨2147483644, 3⟩, ⟨2147483645, 3⟩, q] := by
    simp only [u, v, bounds, q]
    cbv
  have hnone : (between u w).pixels bounds = [] := by
    simp only [u, w, bounds]
    cbv
  have hfinite := (pixels_between u v bounds).1 q
  have hinfinite := (pixels_between u w bounds).1 q
  rw [hpixels] at hfinite
  rw [hnone] at hinfinite
  have hbounds : bounds.contains q = true := by decide
  refine ⟨hpixels, (hfinite.mp (by simp)).2, ?_⟩
  rw [Bool.eq_false_iff]
  exact fun hcontains => List.not_mem_nil (hinfinite.mpr ⟨hbounds, hcontains⟩)

end Between

end Line

end SmoothShading
