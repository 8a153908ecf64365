import Mathlib
import SmoothShading.Proofs.Mesh.LinePath

/-!
# The colors of a line

Along a line the color goes from that of the start to that of the end without ever turning back, and
it is that of an end at the end itself (`Line.colorAt_along`). The share of the way that a pixel has
come is clamped, so a pixel beyond the ends has no color beyond theirs, and it is a quotient by the
greater extent of the line, which is zero only if the line is a single pixel.

A stored channel is rounded after it was computed. This keeps the order of channels, and it moves
none that was stored before (`LawfulChannel`). Of colors that differ in the number of components
only the components that both have are blended.
-/

namespace SmoothShading

open Scalar

/-! ## Blending two channels -/

section Blend

variable {C : Type} [Channel C ℚ]

/-- The stored channel at the share `t` of the way from `x` to `y`, read back. -/
def blendAt (x y : C) (t : ℚ) : ℚ :=
  Channel.widen (Channel.narrow (Channel.widen x * (1 - t) + Channel.widen y * t) : C)

variable [LawfulChannel C] {x y : C}

theorem blendAt_zero (x y : C) : blendAt x y 0 = Channel.widen x := by
  rw [blendAt, sub_zero, mul_one, mul_zero, add_zero, LawfulChannel.narrow_widen]

theorem blendAt_one (x y : C) : blendAt x y 1 = Channel.widen y := by
  rw [blendAt, sub_self, mul_zero, mul_one, zero_add, LawfulChannel.narrow_widen]

theorem blendAt_mono (h : (Channel.widen x : ℚ) ≤ Channel.widen y) : Monotone (blendAt x y) := by
  intro s t hst
  refine LawfulChannel.widen_narrow_mono ?_
  have hstep := mul_le_mul_of_nonneg_left hst (sub_nonneg.mpr h)
  linarith

theorem blendAt_anti (h : (Channel.widen y : ℚ) ≤ Channel.widen x) : Antitone (blendAt x y) := by
  intro s t hst
  refine LawfulChannel.widen_narrow_mono ?_
  have hstep := mul_le_mul_of_nonpos_left hst (sub_nonpos.mpr h)
  linarith

theorem blendAt_mem_uIcc {t : ℚ} (h0 : 0 ≤ t) (h1 : t ≤ 1) :
    blendAt x y t ∈ Set.uIcc (Channel.widen x : ℚ) (Channel.widen y) := by
  rw [← blendAt_zero x y, ← blendAt_one x y]
  rcases le_total (Channel.widen x : ℚ) (Channel.widen y) with h | h
  · exact Set.mem_uIcc_of_le (blendAt_mono h h0) (blendAt_mono h h1)
  · exact Set.mem_uIcc_of_ge (blendAt_anti h h1) (blendAt_anti h h0)

/-- A channel never turns back while the share of the way grows. -/
theorem sorted_map_blendAt {shares : List ℚ} (h : shares.SortedLE) (x y : C) :
    (shares.map (blendAt x y)).SortedLE ∨ (shares.map (blendAt x y)).SortedGE := by
  rcases le_total (Channel.widen x : ℚ) (Channel.widen y) with hle | hle
  · exact .inl (h.pairwise.map _ fun _ _ hst => blendAt_mono hle hst).sortedLE
  · refine .inr (List.Pairwise.sortedGE (h.pairwise.map _ ?_))
    exact fun _ _ hst => blendAt_anti hle hst

end Blend

namespace Color

variable {C : Type} [Channel C ℚ]

/-- The component at an index, as it is computed with. -/
def channel (i : ℕ) (color : Color C) : ℚ := (color[i]?.map Channel.widen).getD 0

theorem channel_eq {color : Color C} {i : ℕ} (h : i < color.length) :
    color.channel i = Channel.widen color[i] := by
  rw [channel, List.getElem?_eq_getElem h, Option.map_some, Option.getD_some]

theorem length_blend₂ (f : ℚ → ℚ → ℚ) (c d : Color C) :
    (blend₂ f c d).length = min c.length d.length := List.length_zipWith

theorem blend₂_swap (f : ℚ → ℚ → ℚ) (c d : Color C) :
    blend₂ (fun x y => f y x) d c = blend₂ f c d := List.zipWith_comm

/-- A blend that takes the first color alone has as many of its components as both have. -/
theorem blend₂_left [LawfulChannel C] {f : ℚ → ℚ → ℚ} (hf : ∀ x y, f x y = x) (c d : Color C) :
    blend₂ f c d = c.take d.length := by
  induction c generalizing d with
  | nil => rw [blend₂, List.zipWith_nil_left, List.take_nil]
  | cons x c ih =>
    rcases d with - | ⟨y, d⟩
    · rfl
    · rw [List.length_cons, List.take_succ_cons, ← ih]
      refine congrArg (· :: _) ?_
      exact (congrArg Channel.narrow (hf _ _)).trans (LawfulChannel.narrow_widen x)

end Color

namespace Line

variable {C : Type} {l : Line ℚ C} {p q : Pixel}

/-! ## The share of the way -/

theorem progress_eq (l : Line ℚ C) (q : Pixel) :
    l.progress q = min (max ((l.step q - l.along l.start.point) /
      (l.along l.stop.point - l.along l.start.point)) 0) 1 := by
  unfold progress
  rw [clamp_rat]
  unfold step along
  cases l.isSteep
  · rfl
  · rfl

theorem progress_mem (l : Line ℚ C) (q : Pixel) : 0 ≤ l.progress q ∧ l.progress q ≤ 1 := by
  rw [progress_eq]
  exact ⟨le_min (le_max_right _ _) zero_le_one, min_le_right _ _⟩

/-- A pixel that is farther on the walk has come farther, if the walk goes from the start. -/
theorem progress_mono (hl : l.along l.start.point ≤ l.along l.stop.point)
    (hpq : l.step p ≤ l.step q) : l.progress p ≤ l.progress q := by
  have hcast : (l.step p : ℚ) ≤ l.step q := Int.cast_le.mpr hpq
  have hextent := sub_nonneg.mpr hl
  rw [progress_eq, progress_eq]
  gcongr

theorem progress_anti (hl : l.along l.stop.point ≤ l.along l.start.point)
    (hpq : l.step p ≤ l.step q) : l.progress q ≤ l.progress p := by
  have hcast : (l.step p : ℚ) ≤ l.step q := Int.cast_le.mpr hpq
  have hshare := div_le_div_of_nonpos_of_le (sub_nonpos.mpr hl)
    (sub_le_sub_right hcast (l.along l.start.point))
  rw [progress_eq, progress_eq]
  gcongr

/-- A line of more than one pixel has an extent along the walk. -/
theorem along_ne (h : l.start.point ≠ l.stop.point) :
    l.along l.start.point ≠ l.along l.stop.point := by
  intro hsame
  have hle := l.abs_across_sub_le
  rw [hsame, sub_self, abs_zero, abs_nonpos_iff, sub_eq_zero] at hle
  refine h ?_
  unfold across at hle
  unfold along at hsame
  cases hsteep : l.isSteep
  · simp only [hsteep, Bool.false_eq_true, if_false] at hle hsame
    exact Point.ext hsame hle.symm
  · simp only [hsteep, if_true] at hle hsame
    exact Point.ext hle.symm hsame

theorem progress_start {a : Pixel} (ha : a.sample = l.start.point) : l.progress a = 0 := by
  have hstep : l.along l.start.point = l.step a := by rw [← ha, along_sample, ofInt_rat]
  rw [progress_eq, hstep, sub_self, zero_div, max_self, min_eq_left zero_le_one]

theorem progress_stop (h : l.start.point ≠ l.stop.point) {b : Pixel}
    (hb : b.sample = l.stop.point) : l.progress b = 1 := by
  have hstep : l.along l.stop.point = l.step b := by rw [← hb, along_sample, ofInt_rat]
  have hextent : l.along l.stop.point - l.along l.start.point ≠ 0 :=
    sub_ne_zero.mpr (along_ne h).symm
  rw [progress_eq, ← hstep, div_self hextent, max_eq_left zero_le_one, min_self]

theorem progress_of_eq (h : l.start.point = l.stop.point) (q : Pixel) : l.progress q = 0 := by
  rw [progress_eq, h, sub_self, div_zero, max_self, min_eq_left zero_le_one]

/-- The way back from the end is what is left of the way from the start. -/
theorem progress_reverse (h : l.start.point ≠ l.stop.point) (q : Pixel) :
    l.reverse.progress q = 1 - l.progress q := by
  have hextent : l.along l.stop.point - l.along l.start.point ≠ 0 :=
    sub_ne_zero.mpr (along_ne h).symm
  have hshare : ((l.step q : ℚ) - l.along l.stop.point) /
      (l.along l.start.point - l.along l.stop.point) =
        1 - (l.step q - l.along l.start.point) /
          (l.along l.stop.point - l.along l.start.point) := by
    rw [← neg_sub, ← neg_sub (l.along l.stop.point), neg_div_neg_eq, eq_sub_iff_add_eq, ← add_div,
      div_eq_one_iff_eq hextent]
    ring
  rw [progress_eq, progress_eq, step_reverse, along_reverse, along_reverse, start_reverse,
    stop_reverse, hshare]
  -- A share before the start or behind the end is clamped to the same end from both directions.
  generalize ((l.step q : ℚ) - l.along l.start.point) /
    (l.along l.stop.point - l.along l.start.point) = share
  rcases le_total share 0 with hlow | hlow
  · rw [max_eq_right hlow, max_eq_left (by linarith), min_eq_right (by linarith),
      min_eq_left zero_le_one, sub_zero]
  · rcases le_total share 1 with hhigh | hhigh
    · rw [max_eq_left hlow, max_eq_left (by linarith), min_eq_left (by linarith),
        min_eq_left hhigh]
    · rw [max_eq_left hlow, max_eq_right (by linarith), min_eq_right hhigh,
        min_eq_left zero_le_one, sub_self]

/-! ## From the start to the end -/

/-- The pixels of the line in a rectangle, from the start to the end. -/
def walk (l : Line ℚ C) (bounds : PixelRect) : List Pixel :=
  if l.along l.start.point ≤ l.along l.stop.point then l.pixels bounds
  else (l.pixels bounds).reverse

theorem pairwise_progress_walk (l : Line ℚ C) (bounds : PixelRect) :
    (l.walk bounds).Pairwise fun p q => l.progress p ≤ l.progress q := by
  have hsteps := l.pairwise_step_pixels bounds
  unfold walk
  split
  · next hl => exact hsteps.imp fun hpq => progress_mono hl hpq.le
  · next hl =>
    rw [List.pairwise_reverse]
    exact hsteps.imp fun hpq => progress_anti (not_le.mp hl).le hpq.le

/-- Along the walk no pixel has come less far than the one before, and none is before the start or
behind the end. -/
theorem sorted_progress_walk (l : Line ℚ C) (bounds : PixelRect) :
    (0 :: (l.walk bounds).map l.progress ++ [1]).SortedLE := by
  have hmem {t : ℚ} (ht : t ∈ (l.walk bounds).map l.progress) : 0 ≤ t ∧ t ≤ 1 := by
    obtain ⟨q, -, rfl⟩ := List.mem_map.mp ht
    exact l.progress_mem q
  -- The ends need not be in the rectangle; the bounds of the share alone put them at the ends.
  refine List.Pairwise.sortedLE (List.pairwise_append.mpr ⟨?_, List.pairwise_singleton _ _, ?_⟩)
  · refine List.pairwise_cons.mpr ⟨fun t ht => (hmem ht).1, ?_⟩
    exact List.pairwise_map.mpr (l.pairwise_progress_walk bounds)
  · intro t ht s hs
    obtain rfl := List.mem_singleton.mp hs
    rcases List.mem_cons.mp ht with rfl | ht
    · exact zero_le_one
    · exact (hmem ht).2

/-! ## The color of a pixel -/

theorem extent_beq_zero_iff :
    (l.extent.x == 0 && l.extent.y == 0) = true ↔ l.start.point = l.stop.point := by
  simp only [extent, Point.sub_x, Point.sub_y, Bool.and_eq_true, beq_iff_eq, sub_eq_zero]
  constructor
  · rintro ⟨hx, hy⟩
    exact Point.ext hx.symm hy.symm
  · intro h
    rw [h]
    exact ⟨rfl, rfl⟩

/-- The quotient that tells how far a pixel has come is by the greater extent, which is not zero. -/
theorem progress_ratDividing {C : Type} {l : Line ℚ C} (h : l.start.point ≠ l.stop.point)
    (byZero : ℚ → ℚ) (q : Pixel) : @progress ℚ C (.ratDividing byZero) l q = l.progress q := by
  have hextent := sub_ne_zero.mpr (along_ne h).symm
  unfold along at hextent
  let p : Point ℚ := q.sample
  have hquotient :
      (if l.isSteep then (ratDividing byZero).div (p.y - l.start.point.y) l.extent.y
        else (ratDividing byZero).div (p.x - l.start.point.x) l.extent.x) =
      if l.isSteep then (p.y - l.start.point.y) / l.extent.y
        else (p.x - l.start.point.x) / l.extent.x := by
    split
    · next hsteep =>
      rw [if_pos hsteep, if_pos hsteep] at hextent
      exact ratDividing_div byZero hextent
    · next hflat =>
      rw [if_neg hflat, if_neg hflat] at hextent
      exact ratDividing_div byZero hextent
  exact congrArg (clamp 0 1) hquotient

variable [Channel C ℚ]

theorem colorAt_of_eq (h : l.start.point = l.stop.point) (q : Pixel) :
    l.colorAt q = l.start.color := if_pos (extent_beq_zero_iff.mpr h)

theorem colorAt_of_ne (h : l.start.point ≠ l.stop.point) (q : Pixel) :
    l.colorAt q = Color.blend₂ (fun x y => x * (1 - l.progress q) + y * l.progress q) l.start.color
      l.stop.color := if_neg fun hextent => h (extent_beq_zero_iff.mp hextent)

theorem colorAt_ratDividing (byZero : ℚ → ℚ) (l : Line ℚ C) (q : Pixel) :
    @colorAt ℚ C (.ratDividing byZero) _ l q = l.colorAt q := by
  by_cases h : l.start.point = l.stop.point
  · exact (if_pos (extent_beq_zero_iff.mpr h)).trans (l.colorAt_of_eq h q).symm
  · unfold colorAt
    rw [progress_ratDividing h]
    rfl

/-- Turned around, a line of more than one pixel has the same colors. -/
theorem colorAt_reverse (h : l.start.point ≠ l.stop.point) (q : Pixel) :
    l.reverse.colorAt q = l.colorAt q := by
  have hreverse : l.reverse.start.point ≠ l.reverse.stop.point := h.symm
  rw [colorAt_of_ne h, colorAt_of_ne hreverse, progress_reverse h, ← Color.blend₂_swap]
  refine congrArg (Color.blend₂ · _ _) (funext fun x => funext fun y => ?_)
  ring

section Channels

variable [LawfulChannel C] {i : ℕ}

theorem colorAt_start (h : l.start.point ≠ l.stop.point) {a : Pixel}
    (ha : a.sample = l.start.point) : l.colorAt a = l.start.color.take l.stop.color.length := by
  rw [colorAt_of_ne h, progress_start ha]
  refine Color.blend₂_left (fun x y => ?_) _ _
  rw [sub_zero, mul_one, mul_zero, add_zero]

theorem colorAt_stop (h : l.start.point ≠ l.stop.point) {b : Pixel}
    (hb : b.sample = l.stop.point) : l.colorAt b = l.stop.color.take l.start.color.length := by
  rw [colorAt_of_ne h, progress_stop h hb, ← Color.blend₂_swap]
  refine Color.blend₂_left (fun y x => ?_) _ _
  rw [sub_self, mul_zero, zero_add, mul_one]

/-- A component that both ends have goes with the share of the way. -/
theorem channel_colorAt (hstart : i < l.start.color.length) (hstop : i < l.stop.color.length)
    (q : Pixel) :
    i < (l.colorAt q).length ∧
      (l.colorAt q).channel i = blendAt l.start.color[i] l.stop.color[i] (l.progress q) := by
  by_cases h : l.start.point = l.stop.point
  · rw [colorAt_of_eq h, progress_of_eq h, blendAt_zero]
    exact ⟨hstart, Color.channel_eq hstart⟩
  · rw [colorAt_of_ne h]
    have hi : i < (Color.blend₂ (fun x y => x * (1 - l.progress q) + y * l.progress q) l.start.color
        l.stop.color).length := by
      rw [Color.length_blend₂]
      exact lt_min hstart hstop
    refine ⟨hi, ?_⟩
    rw [Color.channel_eq hi]
    simp only [Color.blend₂, List.getElem_zipWith]
    rfl

/-- Along the walk, a component that both ends have never turns back. -/
theorem sorted_channel_walk (hstart : i < l.start.color.length) (hstop : i < l.stop.color.length)
    (bounds : PixelRect) :
    let followed := (l.start.color :: (l.walk bounds).map l.colorAt ++ [l.stop.color]).map
      (Color.channel i)
    followed.SortedLE ∨ followed.SortedGE := by
  let x := l.start.color[i]
  let y := l.stop.color[i]
  have hwalk : ((l.walk bounds).map l.colorAt).map (Color.channel i) =
      ((l.walk bounds).map l.progress).map (blendAt x y) := by
    rw [List.map_map, List.map_map]
    exact List.map_congr_left fun q _ => (channel_colorAt hstart hstop q).2
  have hfollowed : (l.start.color :: (l.walk bounds).map l.colorAt ++ [l.stop.color]).map
      (Color.channel i) = (0 :: (l.walk bounds).map l.progress ++ [1]).map (blendAt x y) := by
    simp only [List.map_append, List.map_cons, List.map_nil, hwalk, blendAt_zero, blendAt_one,
      Color.channel_eq hstart, Color.channel_eq hstop, x, y]
  rw [hfollowed]
  exact sorted_map_blendAt (l.sorted_progress_walk bounds) x y

end Channels

/-- The colors of a line are found without a division by zero. A component that both ends have is
nowhere beyond those of the ends, and along the pixels of the line it goes from the one to the other
without turning back. The ends themselves have their own colors, with the components that both have,
and a line that is turned around has the same colors, unless it is a single pixel. -/
theorem colorAt_along [LawfulChannel C] (v w : Vertex ℚ C) :
    let l := between v w
    (∀ byZero q, @colorAt ℚ C (.ratDividing byZero) _ l q = l.colorAt q) ∧
      (∀ i, i < v.color.length → i < w.color.length →
        (∀ q, i < (l.colorAt q).length ∧
          (l.colorAt q).channel i ∈ Set.uIcc (v.color.channel i) (w.color.channel i)) ∧
        ∀ bounds,
          let followed := (v.color :: (l.walk bounds).map l.colorAt ++ [w.color]).map
            (Color.channel i)
          followed.SortedLE ∨ followed.SortedGE) ∧
      (v.point.round = w.point.round → ∀ q, l.colorAt q = v.color) ∧
      (v.point.round ≠ w.point.round →
        (∀ a : Pixel, a.sample = v.point.round → l.colorAt a = v.color.take w.color.length) ∧
        (∀ b : Pixel, b.sample = w.point.round → l.colorAt b = w.color.take v.color.length) ∧
        ∀ q, (between w v).colorAt q = l.colorAt q) := by
  intro l
  refine ⟨fun byZero => colorAt_ratDividing byZero l, fun i hv hw => ⟨fun q => ?_, ?_⟩,
    fun hsame => ?_, fun hne => ⟨fun a ha => ?_, fun b hb => ?_, fun q => ?_⟩⟩
  · obtain ⟨hlength, hchannel⟩ := channel_colorAt (l := l) hv hw q
    obtain ⟨h0, h1⟩ := l.progress_mem q
    refine ⟨hlength, ?_⟩
    rw [hchannel, Color.channel_eq hv, Color.channel_eq hw]
    exact blendAt_mem_uIcc h0 h1
  · exact fun bounds => sorted_channel_walk (l := l) hv hw bounds
  · exact colorAt_of_eq (l := l) hsame
  · exact colorAt_start (l := l) hne ha
  · exact colorAt_stop (l := l) hne hb
  · exact colorAt_reverse (l := l) hne q

/-- Channels that are stored in quarters and rounded down. -/
structure Quarters where
  count : ℤ
deriving DecidableEq

instance : Channel Quarters ℚ where
  widen x := x.count / 4
  narrow y := ⟨⌊y * 4⌋⟩

instance : LawfulChannel Quarters where
  narrow_widen x := by
    have hwhole : (x.count : ℚ) / 4 * 4 = x.count := div_mul_cancel₀ _ four_ne_zero
    exact congrArg Quarters.mk ((congrArg Int.floor hwhole).trans (Int.floor_intCast _))
  widen_narrow_mono y z h := by
    have hfloor : ⌊y * 4⌋ ≤ ⌊z * 4⌋ := Int.floor_mono (by linarith)
    exact div_le_div_of_nonneg_right (Int.cast_le.mpr hfloor) zero_le_four

/-- A steep line that is walked from its end to its start, with a component that is rounded on the
way. The rectangle does not contain its end. -/
theorem colorAt_along_rounded :
    let v : Vertex ℚ Quarters := ⟨⟨7 / 5, 1⟩, [⟨0⟩, ⟨4⟩]⟩
    let w : Vertex ℚ Quarters := ⟨⟨-1 / 2, -3⟩, [⟨4⟩, ⟨1⟩]⟩
    let l := between v w
    let followed := (v.color :: (l.walk ⟨-3, -2, 6, 6⟩).map l.colorAt ++ [w.color]).map
      (Color.channel 1)
    followed = [1, 1, 3 / 4, 1 / 2, 1 / 4, 1 / 4] ∧ followed.SortedGE ∧
      l.colorAt ⟨1, 1⟩ = v.color ∧ l.colorAt ⟨-1, -3⟩ = w.color ∧
      l.colorAt ⟨0, -1⟩ = [⟨2⟩, ⟨2⟩] ∧ (between w v).colorAt ⟨0, -1⟩ = [⟨2⟩, ⟨2⟩] := by
  intro v w l followed
  have hv : (⟨1, 1⟩ : Pixel).sample = v.point.round := by
    simp only [v]
    cbv
  have hw : (⟨-1, -3⟩ : Pixel).sample = w.point.round := by
    simp only [w]
    cbv
  have hne : v.point.round ≠ w.point.round := by
    rw [← hv, ← hw]
    exact fun h => absurd (congrArg Point.x h) (by decide)
  have hfollowed : followed = [1, 1, 3 / 4, 1 / 2, 1 / 4, 1 / 4] := by
    simp only [followed, l, v, w]
    cbv
  have hmiddle : l.colorAt ⟨0, -1⟩ = [⟨2⟩, ⟨2⟩] := by decide +kernel
  obtain ⟨-, hchannels, -, hends⟩ := colorAt_along v w
  obtain ⟨hstart, hstop, hreverse⟩ := hends hne
  obtain ⟨-, hsorted⟩ := hchannels 1 (by decide) (by decide)
  refine ⟨hfollowed, ?_, hstart _ hv, hstop _ hw, hmiddle, (hreverse _).trans hmiddle⟩
  refine (hsorted ⟨-3, -2, 6, 6⟩).resolve_left fun hle => ?_
  change followed.SortedLE at hle
  rw [hfollowed, List.sortedLE_iff_isChain] at hle
  norm_num at hle

/-- Of a start with two components and an end with one, the pixel at the start has the first
component alone. -/
theorem colorAt_start_of_fewer :
    let v : Vertex ℚ ℚ := ⟨⟨0, 0⟩, [1 / 2, 1 / 4]⟩
    let w : Vertex ℚ ℚ := ⟨⟨4, 0⟩, [1]⟩
    let a : Pixel := ⟨0, 0⟩
    a.sample = v.point.round ∧ (between v w).colorAt a = [1 / 2] ∧
      (between v w).colorAt a ≠ v.color := by
  intro v w a
  have hcolor : (between v w).colorAt a = [1 / 2] := by decide +kernel
  refine ⟨?_, hcolor, ?_⟩
  · simp only [v, a]
    cbv
  · rw [hcolor]
    exact fun h => absurd (congrArg List.length h) (by decide)

end Line

end SmoothShading
