import Mathlib
import SmoothShading.Paint.Coverage
import SmoothShading.Proofs.Mesh.Triangle

/-!
# Painting is looking up

The search for the pixels of a triangle misses none within the rectangle and finds no others
(`Triangle.mem_pixels_iff`), and what is painted later is seen (`Coverage.colorAt_ofPixels`). So
painting triangles one over another gives each pixel the color of the last triangle that contains it
(`Coverage.colorAt_ofTriangles`). A triangle paints no pixel twice, so what is counted over its
fragments may be counted over the pixels of the rectangle (`Triangle.countP_fragments`).
-/

namespace SmoothShading

open Scalar

/-- Of pixels that are painted in turn, the last one at a place is found. -/
theorem Fragment.find?_reverse {C : Type} (color : Pixel → Color C) (pixels : List Pixel)
    (q : Pixel) :
    (pixels.map fun q => (⟨q, color q⟩ : Fragment C)).reverse.find? (·.pixel == q) =
      if q ∈ pixels then some ⟨q, color q⟩ else none := by
  rw [← List.map_reverse, List.find?_map]
  by_cases h : q ∈ pixels
  · rw [if_pos h]
    cases hfind : pixels.reverse.find? (· == q) with
    | none =>
      exact absurd (beq_self_eq_true q) (List.find?_eq_none.mp hfind q (List.mem_reverse.mpr h))
    | some r =>
      have hr : (r == q) = true := List.find?_some (p := (· == q)) hfind
      cases beq_iff_eq.mp hr
      exact congrArg (Option.map _) hfind
  · rw [if_neg h, Option.map_eq_none_iff, List.find?_eq_none]
    intro r hr hrq
    cases beq_iff_eq.mp hrq
    exact h (List.mem_reverse.mp hr)

namespace Triangle

section Fragments

variable {K C : Type} [Scalar K] {t : Triangle K C} {bounds : PixelRect} {q : Pixel}

/-! ## Fragments -/

theorem fragments_of_line [Channel C K] {l : Line K C} (h : t.shape = .line l) :
    t.fragments bounds = (l.pixels bounds).map fun q => ⟨q, l.colorAt q⟩ := by
  simp only [fragments, h]

theorem fragments_of_ne_line [Channel C K] (h : ∀ l, t.shape ≠ .line l) :
    t.fragments bounds =
      ((t.candidates bounds).filter fun q => t.contains q.sample).map fun q =>
        ⟨q, t.colorAt q.sample⟩ := by
  unfold fragments contains colorAt
  cases hshape : t.shape with
  | point => rfl
  | line l => exact absurd hshape (h l)
  | proper => rfl

/-! ## Searching the box -/

/-- Whether a pixel lies in the box around a triangle, rounded to pixels of the device. -/
def Surrounds (t : Triangle K C) (q : Pixel) : Prop :=
  (Device.saturate (trunc (floor t.box.x0)) ≤ q.x ∧
      q.x ≤ Device.saturate (trunc (ceil t.box.x1))) ∧
    Device.saturate (trunc (floor t.box.y0)) ≤ q.y ∧ q.y ≤ Device.saturate (trunc (ceil t.box.y1))

theorem mem_candidates_iff :
    q ∈ t.candidates bounds ↔ bounds.contains q = true ∧ t.Surrounds q := by
  obtain ⟨x, y⟩ := q
  simp only [candidates, List.mem_flatMap, List.mem_map, mem_span, PixelRect.contains_iff,
    Surrounds, max_le_iff, le_min_iff, Pixel.mk.injEq]
  constructor
  · rintro ⟨_, hy, _, hx, rfl, rfl⟩
    exact ⟨⟨⟨hx.1.2, hx.2.2⟩, hy.1.2, hy.2.2⟩, ⟨hx.1.1, hx.2.1⟩, hy.1.1, hy.2.1⟩
  · rintro ⟨⟨⟨hx₀, hx₁⟩, hy₀, hy₁⟩, ⟨hx₂, hx₃⟩, hy₂, hy₃⟩
    exact ⟨y, ⟨⟨hy₂, hy₀⟩, hy₃, hy₁⟩, x, ⟨⟨hx₂, hx₀⟩, hx₃, hx₁⟩, rfl, rfl⟩

theorem nodup_candidates (t : Triangle K C) (bounds : PixelRect) : (t.candidates bounds).Nodup :=
  Pixel.nodup_rows (nodup_span _ _) (nodup_span _ _)

/-! ## Counting fragments -/

variable [Channel C K]

/-- A triangle paints some pixels of the rectangle, and none of them twice. -/
theorem exists_fragments_eq (t : Triangle K C) (bounds : PixelRect) :
    ∃ (pixels : List Pixel) (color : Pixel → Color C),
      t.fragments bounds = pixels.map (fun q => ⟨q, color q⟩) ∧ pixels.Nodup ∧
        ∀ q ∈ pixels, bounds.contains q = true := by
  by_cases hline : ∃ l, t.shape = .line l
  · obtain ⟨l, hl⟩ := hline
    exact ⟨_, _, fragments_of_line hl, l.nodup_pixels bounds,
      fun q hq => Line.contains_of_mem_pixels hq⟩
  · refine ⟨_, _, fragments_of_ne_line (not_exists.mp hline), (t.nodup_candidates bounds).filter _,
      fun q hq => ?_⟩
    exact (mem_candidates_iff.mp (List.mem_filter.mp hq).1).1

/-- The color that a triangle gives a pixel, if it paints it. -/
def colorIn? (bounds : PixelRect) (t : Triangle K C) (q : Pixel) : Option (Color C) :=
  ((t.fragments bounds).reverse.find? (·.pixel == q)).map (·.color)

/-- Counting fragments is counting pixels. -/
theorem countP_fragments (t : Triangle K C) (bounds : PixelRect) (p : Color C → Bool) :
    (t.fragments bounds).countP (fun f => p f.color) =
      bounds.pixels.countP fun q => (t.colorIn? bounds q).any p := by
  obtain ⟨pixels, color, hfragments, hnodup, hbounds⟩ := t.exists_fragments_eq bounds
  have hcolor (q : Pixel) : t.colorIn? bounds q = if q ∈ pixels then some (color q) else none := by
    rw [colorIn?, hfragments, Fragment.find?_reverse color, apply_ite (Option.map _)]
    rfl
  rw [hfragments, List.countP_map, List.countP_eq_length_filter, List.countP_eq_length_filter]
  refine List.Perm.length_eq ((List.perm_ext_iff_of_nodup (hnodup.filter _)
    (bounds.nodup_pixels.filter _)).mpr fun q => ?_)
  rw [List.mem_filter, List.mem_filter, PixelRect.mem_pixels, hcolor]
  constructor
  · rintro ⟨hq, hp⟩
    rw [if_pos hq]
    exact ⟨hbounds q hq, hp⟩
  · rintro ⟨-, hp⟩
    split at hp
    · next hq => exact ⟨hq, hp⟩
    · cases hp

end Fragments

variable {C : Type} {t : Triangle ℚ C} {bounds : PixelRect} {q : Pixel}

theorem floor_le_of_abs_sub_lt {x lo : ℚ} {n : ℤ} (hlo : lo ≤ x) (h : |x - n| < 1 / 1000) :
    ⌊lo⌋ ≤ n := by
  have hlt : lo < (n + 1 : ℤ) := by
    push_cast
    linarith [(abs_lt.mp h).2]
  exact Int.lt_add_one_iff.mp (Int.floor_lt.mpr hlt)

theorem le_ceil_of_abs_sub_lt {x hi : ℚ} {n : ℤ} (hhi : x ≤ hi) (h : |x - n| < 1 / 1000) :
    n ≤ ⌈hi⌉ := by
  have hlt : ((n - 1 : ℤ) : ℚ) < hi := by
    push_cast
    linarith [(abs_lt.mp h).1]
  exact Int.sub_one_lt_iff.mp (Int.lt_ceil.mpr hlt)

/-- Neither the rounding of the box to pixels nor the move into the range of the device leaves out a
pixel that coincides with a point of the box. -/
theorem surrounds_of_coincide {r : Point ℚ} (hbounds : bounds.contains q = true)
    (hr : t.box.excludes r = false) (h : coincide r q.sample = true) : t.Surrounds q := by
  obtain ⟨hx, hy⟩ := PixelRect.inRange_of_contains hbounds
  obtain ⟨⟨hrx0, hrx1⟩, hry0, hry1⟩ := Box.excludes_eq_false_iff.mp hr
  obtain ⟨hdx, hdy⟩ := coincide_iff.mp h
  simp only [Surrounds, floor_rat, ceil_rat, trunc_intCast]
  refine ⟨⟨?_, ?_⟩, ?_, ?_⟩
  · exact Device.saturate_le hx (floor_le_of_abs_sub_lt hrx0 hdx)
  · exact Device.le_saturate hx (le_ceil_of_abs_sub_lt hrx1 hdx)
  · exact Device.saturate_le hy (floor_le_of_abs_sub_lt hry0 hdy)
  · exact Device.le_saturate hy (le_ceil_of_abs_sub_lt hry1 hdy)

/-! ## The pixels of a triangle -/

/-- The pixels that a triangle paints within a rectangle. -/
def pixels (t : Triangle ℚ C) (bounds : PixelRect) : List Pixel :=
  match t.shape with
  | .line l => l.pixels bounds
  | _ => (t.candidates bounds).filter fun q => t.contains q.sample

theorem contains_of_line {l : Line ℚ C} (h : t.shape = .line l) (p : Point ℚ) :
    t.contains p = l.contains p := by
  simp only [contains, h, containsAs]

theorem pixels_of_line {l : Line ℚ C} (h : t.shape = .line l) :
    t.pixels bounds = l.pixels bounds := by
  unfold pixels
  simp only [h]

theorem pixels_of_ne_line (h : ∀ l, t.shape ≠ .line l) :
    t.pixels bounds = (t.candidates bounds).filter fun q => t.contains q.sample := by
  unfold pixels
  cases hshape : t.shape with
  | point => rfl
  | line l => exact absurd hshape (h l)
  | proper => rfl

/-- A triangle paints the pixels of the rectangle that it contains. -/
theorem mem_pixels_iff :
    q ∈ t.pixels bounds ↔ bounds.contains q = true ∧ t.contains q.sample = true := by
  by_cases hline : ∃ l, t.shape = .line l
  · obtain ⟨l, hl⟩ := hline
    rw [contains_of_line hl, pixels_of_line hl, eq_between_of_shape hl]
    exact Line.mem_pixels_between_iff _ _
  · have hne := not_exists.mp hline
    rw [pixels_of_ne_line hne, List.mem_filter, mem_candidates_iff]
    refine and_congr_left fun hq => and_iff_left_of_imp fun hbounds => ?_
    obtain ⟨r, hr, hcoincide⟩ := exists_coincide_of_contains hne hq
    exact surrounds_of_coincide hbounds hr hcoincide

variable [Channel C ℚ]

/-- A fragment has the color of the triangle at the sample point of its pixel. -/
theorem fragments_eq (t : Triangle ℚ C) (bounds : PixelRect) :
    t.fragments bounds = (t.pixels bounds).map fun q => ⟨q, t.colorAt q.sample⟩ := by
  by_cases hline : ∃ l, t.shape = .line l
  · obtain ⟨l, hl⟩ := hline
    rw [fragments_of_line hl, pixels_of_line hl]
    refine List.map_congr_left fun q hq => ?_
    obtain ⟨hx, hy⟩ := PixelRect.inRange_of_contains (Line.contains_of_mem_pixels hq)
    simp only [colorAt, colorAs, hl, Pixel.pixel_sample hx hy]
  · have hne := not_exists.mp hline
    rw [fragments_of_ne_line hne, pixels_of_ne_line hne]

theorem find?_fragments_reverse (t : Triangle ℚ C) (bounds : PixelRect) (q : Pixel) :
    (t.fragments bounds).reverse.find? (·.pixel == q) =
      if bounds.contains q && t.contains q.sample then some ⟨q, t.colorAt q.sample⟩ else none := by
  rw [fragments_eq, Fragment.find?_reverse (fun q => t.colorAt q.sample)]
  exact if_congr (mem_pixels_iff.trans (Bool.and_eq_true_iff).symm) rfl rfl

/-- The color that a triangle gives a pixel is its own at the sample point. -/
theorem colorIn?_eq (t : Triangle ℚ C) (bounds : PixelRect) (q : Pixel) :
    t.colorIn? bounds q =
      if bounds.contains q && t.contains q.sample then some (t.colorAt q.sample) else none := by
  rw [colorIn?, find?_fragments_reverse, apply_ite (Option.map _)]
  rfl

end Triangle

namespace Coverage

/-- Of several colors for a pixel the last one is seen. -/
theorem colorAt_ofPixels (painted : List (Pixel × Rgb8)) (q : Pixel) :
    (ofPixels painted).colorAt q = (painted.reverse.find? (·.1 == q)).map (·.2) := by
  induction painted using List.reverseRecOn with
  | nil => exact Std.HashMap.getElem?_empty
  | append_singleton painted p ih =>
    simp only [colorAt, ofPixels, List.foldl_append, List.foldl_cons, List.foldl_nil,
      Std.HashMap.getElem?_insert, List.reverse_append, List.reverse_singleton,
      List.singleton_append, List.find?_cons] at ih ⊢
    cases hp : p.1 == q
    · exact ih
    · rfl

theorem value_ofFragments {C : Type} (convert : Conversion C) (fragments : List (Fragment C)) :
    (ofFragments convert fragments).value =
      ofPixels (fragments.map fun f => (f.pixel, (convert.paint f.color).value)) := by
  simp only [ofFragments, Reported.map, Reported.collect, List.map_map]
  rfl

/-- The color of a pixel is that of its fragment from the last triangle that has one. -/
theorem colorAt_ofTriangles_eq_findSome? {K C : Type} [Scalar K] [Channel C K]
    (convert : Conversion C) (bounds : PixelRect) (triangles : List (Triangle K C)) (q : Pixel) :
    (ofTriangles convert bounds triangles).value.colorAt q =
      (triangles.reverse.findSome? fun t => (t.fragments bounds).reverse.find? (·.pixel == q)).map
        fun f => (convert.paint f.color).value := by
  rw [ofTriangles, value_ofFragments, colorAt_ofPixels, ← List.map_reverse, List.find?_map,
    Option.map_map, List.reverse_flatMap]
  exact congrArg (Option.map _) List.find?_flatMap

/-- What is seen of some triangles at a pixel: the last one that contains it, if the pixel lies in
the rectangle. -/
def topmost {C : Type} (bounds : PixelRect) (triangles : List (Triangle ℚ C)) (q : Pixel) :
    Option (Triangle ℚ C) :=
  if bounds.contains q then triangles.reverse.find? (·.contains q.sample) else none

variable {C : Type} [Channel C ℚ]

theorem findSome?_fragments_reverse (bounds : PixelRect) (triangles : List (Triangle ℚ C))
    (q : Pixel) :
    (triangles.reverse.findSome? fun t => (t.fragments bounds).reverse.find? (·.pixel == q)) =
      (topmost bounds triangles q).map fun t => ⟨q, t.colorAt q.sample⟩ := by
  unfold topmost
  induction triangles.reverse with
  | nil => cases bounds.contains q <;> rfl
  | cons t triangles ih =>
    rw [List.findSome?_cons, Triangle.find?_fragments_reverse, List.find?_cons, ih]
    cases bounds.contains q <;> cases t.contains q.sample <;> rfl

/-- Triangles that are painted one over another show the last one at each pixel. -/
theorem colorAt_ofTriangles (convert : Conversion C) (bounds : PixelRect)
    (triangles : List (Triangle ℚ C)) (q : Pixel) :
    (ofTriangles convert bounds triangles).value.colorAt q =
      (topmost bounds triangles q).map fun t => (convert.paint (t.colorAt q.sample)).value := by
  rw [colorAt_ofTriangles_eq_findSome?, findSome?_fragments_reverse, Option.map_map]
  rfl

end Coverage

end SmoothShading
