import Mathlib
import SmoothShading.Proofs.Mesh.Triangle
import SmoothShading.Proofs.Plane.Nudge

/-!
# Triangles side by side

Triangles that fit together share out the points of the plane: a triangle that is divided at an
inner point (`Triangle.countP_contains_of_isInside`), and two triangles on the two sides of a common
edge (`Triangle.contains_across_edge`). No point is lost or taken twice, neither on the edges nor in
the corners.

A triangle with an area contains a point if and only if the point, moved a little, is a mean of the
corners in which each has a share (`Triangle.eventually_contains_iff`). Of this neither the order of
the corners nor any tie is left to see, and what remains is about points on no edge.
-/

namespace SmoothShading

open Filter Scalar Topology

/-! ## Three things in any order -/

/-- What stays when two of three are exchanged and when all three go round holds in every order. -/
theorem iff_of_perm_three {α : Type} {P : α → α → α → Prop} {x y z a b c : α}
    (h : [x, y, z].Perm [a, b, c]) (hswap : ∀ a b c, P a b c → P b a c)
    (hrotate : ∀ a b c, P a b c → P b c a) : P x y z ↔ P a b c := by
  have hcases := List.mem_permutations'.mpr h
  simp only [List.permutations', List.permutations'Aux, List.flatMap_cons, List.flatMap_nil,
    List.map_cons, List.map_nil, List.append_nil, List.cons_append, List.nil_append,
    List.mem_cons, List.not_mem_nil, or_false, List.cons.injEq, and_true] at hcases
  rcases hcases with ⟨rfl, rfl, rfl⟩ | ⟨rfl, rfl, rfl⟩ | ⟨rfl, rfl, rfl⟩ | ⟨rfl, rfl, rfl⟩ |
    ⟨rfl, rfl, rfl⟩ | ⟨rfl, rfl, rfl⟩
  · exact Iff.rfl
  · exact ⟨hswap _ _ _, hswap _ _ _⟩
  · exact ⟨fun h => hrotate _ _ _ (hrotate _ _ _ h), hrotate _ _ _⟩
  · exact ⟨fun h => hrotate _ _ _ (hswap _ _ _ h), fun h => hrotate _ _ _ (hswap _ _ _ h)⟩
  · exact ⟨hrotate _ _ _, fun h => hrotate _ _ _ (hrotate _ _ _ h)⟩
  · exact ⟨fun h => hswap _ _ _ (hrotate _ _ _ h), fun h => hswap _ _ _ (hrotate _ _ _ h)⟩

/-! ## The inside of three points -/

/-- The point `q` is a mean of `a`, `b` and `c` in which each of them has a share. -/
def IsInside (q a b c : Point ℚ) : Prop :=
  ∃ u v w : ℚ, 0 < u ∧ 0 < v ∧ 0 < w ∧ u + v + w = 1 ∧ q = a * u + b * v + c * w

variable {q a b c d : Point ℚ}

theorem sideOf_mean {u v w : ℚ} (hsum : u + v + w = 1) (x y : Point ℚ) :
    sideOf (a * u + b * v + c * w) x y =
      u * sideOf a x y + v * sideOf b x y + w * sideOf c x y := by
  obtain rfl : u = 1 - v - w := by linarith
  simp only [sideOf, Point.add_x, Point.add_y, Point.mul_x, Point.mul_y]
  ring

theorem sideOf_left (a b : Point ℚ) : sideOf a a b = 0 := by
  simp [sideOf]

theorem sideOf_right (a b : Point ℚ) : sideOf b a b = 0 := by
  simp only [sideOf]
  ring

theorem mul_signedArea_rotate {k : ℚ} (hk : 0 < k * signedArea a b c) :
    0 < k * signedArea b c a := by
  rwa [signedArea_rotate]

namespace IsInside

theorem swap (h : IsInside q a b c) : IsInside q b a c := by
  obtain ⟨u, v, w, hu, hv, hw, hsum, rfl⟩ := h
  refine ⟨v, u, w, hv, hu, hw, by linarith, ?_⟩
  ext
  · simp only [Point.add_x, Point.mul_x]
    ring
  · simp only [Point.add_y, Point.mul_y]
    ring

theorem rotate (h : IsInside q a b c) : IsInside q b c a := by
  obtain ⟨u, v, w, hu, hv, hw, hsum, rfl⟩ := h
  refine ⟨v, w, u, hv, hw, hu, by linarith, ?_⟩
  ext
  · simp only [Point.add_x, Point.mul_x]
    ring
  · simp only [Point.add_y, Point.mul_y]
    ring

/-- Seen from an edge, an inner point is where the third corner is. -/
theorem exists_sideOf_eq (h : IsInside q a b c) :
    ∃ w, 0 < w ∧ sideOf q a b = w * sideOf c a b := by
  obtain ⟨u, v, w, -, -, hw, hsum, rfl⟩ := h
  refine ⟨w, hw, ?_⟩
  rw [sideOf_mean hsum, sideOf_left, sideOf_right]
  ring

theorem mul_sideOf_neg (h : IsInside q a b c) {k : ℚ} (hk : 0 < k * signedArea a b c) :
    k * sideOf q a b < 0 := by
  obtain ⟨w, hw, hq⟩ := h.exists_sideOf_eq
  have heq : k * sideOf q a b = -2 * (w * (k * signedArea a b c)) := by
    rw [hq, sideOf_eq_signedArea]
    ring
  have hpos := mul_pos hw hk
  linarith

end IsInside

/-- The inside lies on the inner sides of all edges. The factor `k` tells which sides these are: it
has the sign of the area. -/
theorem isInside_iff {k : ℚ} (hk : 0 < k * signedArea a b c) :
    IsInside q a b c ↔
      k * sideOf q a b < 0 ∧ k * sideOf q b c < 0 ∧ k * sideOf q c a < 0 := by
  constructor
  · intro h
    have hbc := mul_signedArea_rotate hk
    have hca := mul_signedArea_rotate hbc
    exact ⟨h.mul_sideOf_neg hk, h.rotate.mul_sideOf_neg hbc, h.rotate.rotate.mul_sideOf_neg hca⟩
  · rintro ⟨hab, hbc, hca⟩
    -- The share of a corner is the area that the point spans with the other two.
    let whole := 2 * (k * signedArea a b c)
    let share (x y : Point ℚ) : ℚ := -(k * sideOf q x y) / whole
    have hwhole : 0 < whole := by linarith
    have hshare (x y : Point ℚ) (h : k * sideOf q x y < 0) : 0 < share x y :=
      div_pos (neg_pos.mpr h) hwhole
    have hsum : share b c + share c a + share a b = 1 := by
      rw [← add_div, ← add_div, div_eq_one_iff_eq hwhole.ne']
      simp only [whole, sideOf, signedArea]
      ring
    refine ⟨share b c, share c a, share a b, hshare b c hbc, hshare c a hca, hshare a b hab, hsum,
      ?_⟩
    ext
    · simp only [share, Point.add_x, Point.mul_x]
      rw [mul_div_assoc', mul_div_assoc', mul_div_assoc', ← add_div, ← add_div,
        eq_div_iff hwhole.ne']
      simp only [whole, sideOf, signedArea]
      ring
    · simp only [share, Point.add_y, Point.mul_y]
      rw [mul_div_assoc', mul_div_assoc', mul_div_assoc', ← add_div, ← add_div,
        eq_div_iff hwhole.ne']
      simp only [whole, sideOf, signedArea]
      ring

/-! ## The points of a triangle, moved off its edges -/

theorem ne_of_signedArea_ne_zero (h : signedArea a b c ≠ 0) : a ≠ b := by
  rintro rfl
  apply h
  simp only [signedArea]
  ring

theorem eventually_insideEdges_iff (h : 0 < signedArea a b c) (p : Point ℚ) :
    ∀ᶠ ε in 𝓝[>] (0 : ℚ),
      (insideEdge p a b && insideEdge p b c && insideEdge p c a) = true ↔
        IsInside (p.nudge ε) a b c := by
  have hab : a ≠ b := ne_of_signedArea_ne_zero h.ne'
  have hbc : b ≠ c := ne_of_signedArea_ne_zero (c := a) (by rw [signedArea_rotate]; exact h.ne')
  have hca : c ≠ a :=
    ne_of_signedArea_ne_zero (c := b) (by rw [signedArea_rotate, signedArea_rotate]; exact h.ne')
  filter_upwards [eventually_insideEdge_iff hab p, eventually_insideEdge_iff hbc p,
    eventually_insideEdge_iff hca p] with ε hab hbc hca
  rw [isInside_iff (k := 1) (by linarith), one_mul, one_mul, one_mul, Bool.and_eq_true,
    Bool.and_eq_true, hab.2, hbc.2, hca.2, and_assoc]

namespace Triangle

variable {C : Type} {t : Triangle ℚ C}

/-- A triangle with an area contains the points that a small step takes inside. -/
theorem eventually_contains_iff (h : t.shape = .proper) (p : Point ℚ) :
    ∀ᶠ ε in 𝓝[>] (0 : ℚ),
      t.contains p = true ↔ IsInside (p.nudge ε) t.a.point t.b.point t.c.point := by
  rw [contains_of_proper h, properContains]
  split
  · next hpos => exact eventually_insideEdges_iff hpos p
  · next hneg =>
    have hpos : 0 < signedArea t.a.point t.c.point t.b.point := by
      rw [signedArea_swap]
      exact neg_pos.mpr (lt_of_le_of_ne (not_lt.mp hneg) (area_ne_zero_of_shape h))
    filter_upwards [eventually_insideEdges_iff hpos p] with ε hε
    rw [hε]
    exact ⟨fun hin => hin.swap.rotate, fun hin => hin.swap.rotate⟩

/-- These are the corners of the triangle, in any order. -/
def HasCorners (t : Triangle ℚ C) (a b c : Point ℚ) : Prop :=
  [t.a.point, t.b.point, t.c.point].Perm [a, b, c]

theorem HasCorners.isInside_iff (h : t.HasCorners a b c) :
    IsInside q t.a.point t.b.point t.c.point ↔ IsInside q a b c :=
  iff_of_perm_three h (fun _ _ _ => IsInside.swap) fun _ _ _ => IsInside.rotate

theorem HasCorners.signedArea_ne_zero (h : t.HasCorners a b c) (hproper : t.shape = .proper) :
    signedArea a b c ≠ 0 := by
  refine (iff_of_perm_three (P := fun a b c => signedArea a b c ≠ 0) h ?_ ?_).mp
    (area_ne_zero_of_shape hproper)
  · intro a b c hne
    rw [← signedArea_rotate, signedArea_swap, neg_ne_zero]
    exact hne
  · intro a b c hne
    rw [signedArea_rotate]
    exact hne

theorem HasCorners.ne_third (h : t.HasCorners a b c) (hproper : t.shape = .proper) : b ≠ c := by
  refine ne_of_signedArea_ne_zero (c := a) ?_
  rw [signedArea_rotate]
  exact h.signedArea_ne_zero hproper

theorem HasCorners.eventually_contains_iff (h : t.HasCorners a b c) (hproper : t.shape = .proper)
    (p : Point ℚ) :
    ∀ᶠ ε in 𝓝[>] (0 : ℚ), t.contains p = true ↔ IsInside (p.nudge ε) a b c := by
  filter_upwards [Triangle.eventually_contains_iff hproper p] with ε hε
  exact hε.trans h.isInside_iff

end Triangle

/-! ## Dividing a triangle at an inner point -/

namespace IsInside

/-- What is inside a part is inside the whole. -/
theorem of_part (hd : IsInside d a b c) (h : IsInside q a b d) : IsInside q a b c := by
  obtain ⟨u, v, w, hu, hv, hw, hsum, rfl⟩ := hd
  obtain ⟨u', v', w', hu', hv', hw', hsum', rfl⟩ := h
  refine ⟨u' + w' * u, v' + w' * v, w' * w, by positivity, by positivity, by positivity, ?_, ?_⟩
  · calc u' + w' * u + (v' + w' * v) + w' * w = u' + v' + w' * (u + v + w) := by ring
      _ = 1 := by rw [hsum, mul_one, hsum']
  · ext
    · simp only [Point.add_x, Point.mul_x]
      ring
    · simp only [Point.add_y, Point.mul_y]
      ring

/-- A part has a share of the area, with the same sign. -/
theorem mul_signedArea_pos (hd : IsInside d a b c) {k : ℚ} (hk : 0 < k * signedArea a b c) :
    0 < k * signedArea a b d := by
  obtain ⟨w, hw, h⟩ := hd.exists_sideOf_eq
  rw [sideOf_eq_signedArea, sideOf_eq_signedArea] at h
  have hpart : k * signedArea a b d = w * (k * signedArea a b c) := by
    linear_combination -(k / 2) * h
  rw [hpart]
  exact mul_pos hw hk

theorem exists_mean_sideOf_eq_zero (hd : IsInside d a b c) (q : Point ℚ) :
    ∃ u v w : ℚ, 0 < u ∧ 0 < v ∧ 0 < w ∧
      u * sideOf q a d + v * sideOf q b d + w * sideOf q c d = 0 := by
  obtain ⟨u, v, w, hu, hv, hw, hsum, rfl⟩ := hd
  refine ⟨u, v, w, hu, hv, hw, ?_⟩
  obtain rfl : u = 1 - v - w := by linarith
  simp only [sideOf, Point.add_x, Point.add_y, Point.mul_x, Point.mul_y]
  ring

/-- The edge from `b` to the inner point has the parts beside it on different sides. -/
theorem not_isInside_next (hd : IsInside d a b c) {k : ℚ} (hk : 0 < k * signedArea a b c)
    (h : IsInside q a b d) : ¬ IsInside q b c d := by
  intro hnext
  have hbc := hd.rotate.mul_signedArea_pos (mul_signedArea_rotate hk)
  obtain ⟨-, hbd, -⟩ := (isInside_iff (hd.mul_signedArea_pos hk)).mp h
  obtain ⟨-, -, hdb⟩ := (isInside_iff hbc).mp hnext
  rw [sideOf_swap] at hdb
  linarith

end IsInside

/-- Three numbers with a mean of zero cannot all have one sign: one of them is positive and the next
one, going round, is negative. -/
theorem exists_pos_neg_of_mean_eq_zero {x y z u v w : ℚ} (hu : 0 < u) (hv : 0 < v) (hw : 0 < w)
    (hmean : u * x + v * y + w * z = 0) (hx : x ≠ 0) (hy : y ≠ 0) (hz : z ≠ 0) :
    0 < x ∧ y < 0 ∨ 0 < y ∧ z < 0 ∨ 0 < z ∧ x < 0 := by
  rcases lt_or_gt_of_ne hx with hx | hx
  · rcases lt_or_gt_of_ne hz with hz | hz
    · rcases lt_or_gt_of_ne hy with hy | hy
      · have := mul_neg_of_pos_of_neg hu hx
        have := mul_neg_of_pos_of_neg hv hy
        have := mul_neg_of_pos_of_neg hw hz
        linarith
      · exact .inr (.inl ⟨hy, hz⟩)
    · exact .inr (.inr ⟨hz, hx⟩)
  · rcases lt_or_gt_of_ne hy with hy | hy
    · exact .inl ⟨hx, hy⟩
    · rcases lt_or_gt_of_ne hz with hz | hz
      · exact .inr (.inl ⟨hy, hz⟩)
      · have := mul_pos hu hx
        have := mul_pos hv hy
        have := mul_pos hw hz
        linarith

namespace IsInside

/-- Between the edges from `a` and from `b` to the inner point there is one part. -/
theorem part_of_sides (hd : IsInside d a b c) {k : ℚ} (hk : 0 < k * signedArea a b c)
    (h : IsInside q a b c) (ha : 0 < k * sideOf q a d) (hb : k * sideOf q b d < 0) :
    IsInside q a b d := by
  obtain ⟨hab, -, -⟩ := (isInside_iff hk).mp h
  refine (isInside_iff (hd.mul_signedArea_pos hk)).mpr ⟨hab, hb, ?_⟩
  rw [sideOf_swap]
  linarith

/-- Away from the inner edges the parts make up the whole. -/
theorem iff_parts (hd : IsInside d a b c) {k : ℚ} (hk : 0 < k * signedArea a b c)
    (ha : sideOf q a d ≠ 0) (hb : sideOf q b d ≠ 0) (hc : sideOf q c d ≠ 0) :
    IsInside q a b c ↔ IsInside q a b d ∨ IsInside q b c d ∨ IsInside q c a d := by
  have hbc := mul_signedArea_rotate hk
  have hca := mul_signedArea_rotate hbc
  have hk0 : k ≠ 0 := left_ne_zero_of_mul hk.ne'
  constructor
  · intro h
    obtain ⟨u, v, w, hu, hv, hw, hmean⟩ := hd.exists_mean_sideOf_eq_zero q
    have hmean' : u * (k * sideOf q a d) + v * (k * sideOf q b d) + w * (k * sideOf q c d) = 0 := by
      linear_combination k * hmean
    rcases exists_pos_neg_of_mean_eq_zero hu hv hw hmean' (mul_ne_zero hk0 ha)
      (mul_ne_zero hk0 hb) (mul_ne_zero hk0 hc) with ⟨ha, hb⟩ | ⟨hb, hc⟩ | ⟨hc, ha⟩
    · exact .inl (hd.part_of_sides hk h ha hb)
    · exact .inr (.inl (hd.rotate.part_of_sides hbc h.rotate hb hc))
    · exact .inr (.inr (hd.rotate.rotate.part_of_sides hca h.rotate.rotate hc ha))
  · rintro (h | h | h)
    · exact hd.of_part h
    · exact (hd.rotate.of_part h).rotate.rotate
    · exact (hd.rotate.rotate.of_part h).rotate

end IsInside

/-- Of three exclusive cases that make up a fourth one, as many hold as of the fourth one. -/
theorem countP_eq_toNat {α : Type} {f : α → Bool} {x y z : α} {whole : Bool}
    (hwhole : whole = true ↔ f x = true ∨ f y = true ∨ f z = true)
    (hxy : f x = true → ¬ f y = true) (hyz : f y = true → ¬ f z = true)
    (hzx : f z = true → ¬ f x = true) : [x, y, z].countP f = whole.toNat := by
  simp only [List.countP_cons, List.countP_nil]
  generalize f x = a at *
  generalize f y = b at *
  generalize f z = c at *
  revert whole a b c
  decide

namespace Triangle

variable {C : Type} {t t₁ t₂ t₃ : Triangle ℚ C}

/-- A triangle that is divided at an inner point contains the points that exactly one of the three
parts contains. No point is in two parts, and none is in a part and not in the triangle. -/
theorem countP_contains_of_isInside (hd : IsInside d a b c) (ht : t.HasCorners a b c)
    (h₁ : t₁.HasCorners a b d) (h₂ : t₂.HasCorners b c d) (h₃ : t₃.HasCorners c a d)
    (hshape : ∀ s ∈ [t, t₁, t₂, t₃], s.shape = .proper) (p : Point ℚ) :
    [t₁, t₂, t₃].countP (·.contains p) = (t.contains p).toNat := by
  obtain ⟨hs, hs₁, hs₂, hs₃⟩ : t.shape = .proper ∧ t₁.shape = .proper ∧ t₂.shape = .proper ∧
      t₃.shape = .proper := by simpa using hshape
  -- One step off the point decides for the whole and for all parts, and leaves the inner edges.
  obtain ⟨ε, hin, hin₁, hin₂, hin₃, ⟨hb, -⟩, ⟨hc, -⟩, ⟨ha, -⟩⟩ :=
    ((ht.eventually_contains_iff hs p).and <| (h₁.eventually_contains_iff hs₁ p).and <|
      (h₂.eventually_contains_iff hs₂ p).and <| (h₃.eventually_contains_iff hs₃ p).and <|
      (eventually_insideEdge_iff (h₁.ne_third hs₁) p).and <|
      (eventually_insideEdge_iff (h₂.ne_third hs₂) p).and <|
      eventually_insideEdge_iff (h₃.ne_third hs₃) p).exists
  have hk := mul_self_pos.mpr (ht.signedArea_ne_zero hs)
  have hbc := mul_signedArea_rotate hk
  have hca := mul_signedArea_rotate hbc
  have hcover : t.contains p = true ↔
      t₁.contains p = true ∨ t₂.contains p = true ∨ t₃.contains p = true := by
    rw [hin, hin₁, hin₂, hin₃]
    exact hd.iff_parts hk ha hb hc
  have h₁₂ : t₁.contains p = true → ¬ t₂.contains p = true := by
    rw [hin₁, hin₂]
    exact hd.not_isInside_next hk
  have h₂₃ : t₂.contains p = true → ¬ t₃.contains p = true := by
    rw [hin₂, hin₃]
    exact hd.rotate.not_isInside_next hbc
  have h₃₁ : t₃.contains p = true → ¬ t₁.contains p = true := by
    rw [hin₃, hin₁]
    exact hd.rotate.rotate.not_isInside_next hca
  exact countP_eq_toNat hcover h₁₂ h₂₃ h₃₁

/-- The middle of a divided triangle, whose own corners go round the other way. -/
theorem countP_contains_of_isInside_middle :
    let a : Point ℚ := ⟨0, 0⟩
    let b : Point ℚ := ⟨6, 0⟩
    let c : Point ℚ := ⟨0, 6⟩
    let d : Point ℚ := ⟨2, 2⟩
    let triangle (x y z : Point ℚ) : Triangle ℚ ℚ := ⟨⟨x, [0]⟩, ⟨y, [1]⟩, ⟨z, [2]⟩⟩
    IsInside d a b c ∧
      (∀ s ∈ [triangle b a c, triangle a b d, triangle b c d, triangle c a d], s.shape = .proper) ∧
      [triangle a b d, triangle b c d, triangle c a d].countP (·.contains d) =
        ((triangle b a c).contains d).toNat := by
  intro a b c d triangle
  have hd : IsInside d a b c := by
    refine ⟨1 / 3, 1 / 3, 1 / 3, by norm_num, by norm_num, by norm_num, by norm_num, ?_⟩
    ext
    · change (2 : ℚ) = 0 * (1 / 3) + 6 * (1 / 3) + 0 * (1 / 3)
      norm_num
    · change (2 : ℚ) = 0 * (1 / 3) + 0 * (1 / 3) + 6 * (1 / 3)
      norm_num
  have hshape : ∀ s ∈ [triangle b a c, triangle a b d, triangle b c d, triangle c a d],
      s.shape = .proper := by
    intro s hs
    rw [shape_eq_proper_iff]
    fin_cases hs <;> decide +kernel
  have hwhole : (triangle b a c).HasCorners a b c := .swap a b [c]
  have hpart (x y z : Point ℚ) : (triangle x y z).HasCorners x y z := .refl _
  exact ⟨hd, hshape, countP_contains_of_isInside hd hwhole (hpart a b d) (hpart b c d)
    (hpart c a d) hshape d⟩

end Triangle

/-! ## Two triangles at an edge -/

/-- The point lies between two others, and is neither of them. -/
def IsBetween (p a b : Point ℚ) : Prop :=
  ∃ r : ℚ, 0 < r ∧ r < 1 ∧ p = a * (1 - r) + b * r

namespace IsInside

/-- Nothing is inside on both sides of an edge. -/
theorem not_isInside_across (hopposite : sideOf c a b * sideOf d a b < 0)
    (hc : IsInside q a b c) : ¬ IsInside q a b d := by
  intro hd
  obtain ⟨w, hw, hc⟩ := hc.exists_sideOf_eq
  obtain ⟨w', hw', hd⟩ := hd.exists_sideOf_eq
  have hsq : sideOf q a b * sideOf q a b = w * w' * (sideOf c a b * sideOf d a b) := by
    nth_rewrite 1 [hc]
    rw [hd]
    ring
  have hneg := mul_neg_of_pos_of_neg (mul_pos hw hw') hopposite
  have hnonneg := mul_self_nonneg (sideOf q a b)
  linarith

end IsInside

namespace IsBetween

variable {p : Point ℚ}

/-- A point between two corners is on the inner sides of the two other edges. -/
theorem mul_sideOf_neg (hp : IsBetween p a b) {k : ℚ} (hk : 0 < k * signedArea a b c) :
    k * sideOf p b c < 0 ∧ k * sideOf p c a < 0 := by
  obtain ⟨r, hr0, hr1, rfl⟩ := hp
  constructor
  · have heq : k * sideOf (a * (1 - r) + b * r) b c = -2 * ((1 - r) * (k * signedArea a b c)) := by
      simp only [sideOf, signedArea, Point.add_x, Point.add_y, Point.mul_x, Point.mul_y]
      ring
    have hpos := mul_pos (sub_pos.mpr hr1) hk
    linarith
  · have heq : k * sideOf (a * (1 - r) + b * r) c a = -2 * (r * (k * signedArea a b c)) := by
      simp only [sideOf, signedArea, Point.add_x, Point.add_y, Point.mul_x, Point.mul_y]
      ring
    have hpos := mul_pos hr0 hk
    linarith

/-- A small step from an edge to the side of the third corner goes inside. -/
theorem eventually_isInside (hp : IsBetween p a b) (harea : signedArea a b c ≠ 0) :
    ∀ᶠ ε in 𝓝[>] (0 : ℚ),
      0 < sideOf (p.nudge ε) a b * sideOf c a b → IsInside (p.nudge ε) a b c := by
  have hk : 0 < signedArea a b c * signedArea a b c := mul_self_pos.mpr harea
  obtain ⟨hbc, hca⟩ := hp.mul_sideOf_neg hk
  filter_upwards [eventually_mul_sideOf_neg hbc, eventually_mul_sideOf_neg hca] with ε hbc hca hside
  rw [sideOf_eq_signedArea a b c] at hside
  have hab : signedArea a b c * sideOf (p.nudge ε) a b < 0 := by linarith
  exact (isInside_iff hk).mpr ⟨hab, hbc, hca⟩

end IsBetween

/-- A point that is not on a line is on the side of one of two points across the line. -/
theorem pos_or_pos_of_sideOf (hopposite : sideOf c a b * sideOf d a b < 0)
    (hoff : sideOf q a b ≠ 0) :
    0 < sideOf q a b * sideOf c a b ∨ 0 < sideOf q a b * sideOf d a b := by
  have heq : sideOf q a b * sideOf c a b * (sideOf q a b * sideOf d a b) =
      sideOf q a b * sideOf q a b * (sideOf c a b * sideOf d a b) := by ring
  have hneg : sideOf q a b * sideOf c a b * (sideOf q a b * sideOf d a b) < 0 := by
    rw [heq]
    exact mul_neg_of_pos_of_neg (mul_self_pos.mpr hoff) hopposite
  rcases mul_neg_iff.mp hneg with ⟨hc, -⟩ | ⟨-, hd⟩
  · exact .inl hc
  · exact .inr hd

namespace Triangle

variable {C : Type} {s t : Triangle ℚ C}

/-- Two triangles on the two sides of an edge have no point in common, and each point of the edge
between its ends is in exactly one of them. -/
theorem contains_across_edge (hs : s.HasCorners a b c) (ht : t.HasCorners a b d)
    (hshape : s.shape = .proper ∧ t.shape = .proper)
    (hopposite : sideOf c a b * sideOf d a b < 0) :
    (∀ p, ¬ (s.contains p = true ∧ t.contains p = true)) ∧
      ∀ p, IsBetween p a b → s.contains p = !t.contains p := by
  have hdisjoint : ∀ p, ¬ (s.contains p = true ∧ t.contains p = true) := by
    rintro p ⟨hsp, htp⟩
    obtain ⟨ε, hc, hd⟩ :=
      ((hs.eventually_contains_iff hshape.1 p).and (ht.eventually_contains_iff hshape.2 p)).exists
    exact IsInside.not_isInside_across hopposite (hc.mp hsp) (hd.mp htp)
  refine ⟨hdisjoint, fun p hp => ?_⟩
  have hareas := hs.signedArea_ne_zero hshape.1
  have haread := ht.signedArea_ne_zero hshape.2
  have hcover : s.contains p = true ∨ t.contains p = true := by
    -- A step off the edge goes into the triangle on that side.
    obtain ⟨ε, hc, hd, ⟨hoff, -⟩, hinc, hind⟩ :=
      ((hs.eventually_contains_iff hshape.1 p).and <|
        (ht.eventually_contains_iff hshape.2 p).and <|
        (eventually_insideEdge_iff (ne_of_signedArea_ne_zero hareas) p).and <|
        (hp.eventually_isInside hareas).and <| hp.eventually_isInside haread).exists
    rcases pos_or_pos_of_sideOf hopposite hoff with h | h
    · exact .inl (hc.mpr (hinc h))
    · exact .inr (hd.mpr (hind h))
  rw [Bool.eq_not]
  intro heq
  rcases hcover with hsp | htp
  · exact hdisjoint p ⟨hsp, heq ▸ hsp⟩
  · exact hdisjoint p ⟨heq ▸ htp, htp⟩

/-- The middle of a square that is cut along its diagonal. The corners of both halves are given in
an order of their own. -/
theorem contains_across_edge_diagonal :
    let a : Point ℚ := ⟨0, 0⟩
    let b : Point ℚ := ⟨6, 6⟩
    let c : Point ℚ := ⟨6, 0⟩
    let d : Point ℚ := ⟨0, 6⟩
    let p : Point ℚ := ⟨3, 3⟩
    let s : Triangle ℚ ℚ := ⟨⟨c, [0]⟩, ⟨a, [1]⟩, ⟨b, [2]⟩⟩
    let t : Triangle ℚ ℚ := ⟨⟨b, [0]⟩, ⟨a, [1]⟩, ⟨d, [2]⟩⟩
    (s.shape = .proper ∧ t.shape = .proper) ∧ sideOf c a b * sideOf d a b < 0 ∧ IsBetween p a b ∧
      ¬ (s.contains p = true ∧ t.contains p = true) ∧ s.contains p = !t.contains p := by
  intro a b c d p s t
  have hs : s.HasCorners a b c := (List.Perm.swap a c [b]).trans ((List.Perm.swap b c []).cons a)
  have ht : t.HasCorners a b d := .swap a b [d]
  have hshape : s.shape = .proper ∧ t.shape = .proper := by
    rw [shape_eq_proper_iff, shape_eq_proper_iff]
    decide +kernel
  have hopposite : sideOf c a b * sideOf d a b < 0 := by decide +kernel
  have hp : IsBetween p a b := by
    refine ⟨1 / 2, by norm_num, by norm_num, ?_⟩
    ext
    · change (3 : ℚ) = 0 * (1 - 1 / 2) + 6 * (1 / 2)
      norm_num
    · change (3 : ℚ) = 0 * (1 - 1 / 2) + 6 * (1 / 2)
      norm_num
  obtain ⟨hdisjoint, hcover⟩ := contains_across_edge hs ht hshape hopposite
  exact ⟨hshape, hopposite, hp, hdisjoint p, hcover p hp⟩

end Triangle

end SmoothShading
