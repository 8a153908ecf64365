import Mathlib
import SmoothShading.Proofs.Mesh.Side
import SmoothShading.Proofs.Stream.Records
import SmoothShading.Proofs.Stream.Samples
import SmoothShading.Stream.PatchMesh

/-!
# Chains of patches

In a decoded patch mesh every patch whose record joins on meets the patch before it along the whole
side that its flag names (`PatchMesh.decode_meets`), however long the chain is and wherever the
stream comes from.

Two things are carried along the records: which patch is the last one, and that all colors have the
same number of components, without which the colors along a common side need not agree.
-/

namespace SmoothShading

open Bits

namespace PatchRecord

variable {K C : Type} {kind : PatchKind}

/-- The side that a record joins on to. -/
def side? : PatchRecord K C kind → Option Side
  | fresh .. => none
  | joined side .. => some side

/-- All colors of a record have the same number of components. -/
def HasComponents (n : ℕ) : PatchRecord K C kind → Prop
  | fresh _ colors => ∀ c ∈ colors, c.length = n
  | joined _ _ colors => ∀ c ∈ colors, c.length = n

/-- The patch that a record makes behind another one. -/
def behind [Scalar K] (last : Patch K C) : PatchRecord K C kind → Patch K C
  | fresh points colors => .ofPoints kind points colors
  | joined side points colors => .ofSide kind (last.sideAt side) points colors

end PatchRecord

namespace Patch

variable {C : Type} {kind : PatchKind} {n : ℕ}

theorem hasComponents_ofPoints (points : Vector (Point ℚ) kind.points)
    {colors : Vector (Color C) 4} (h : ∀ c ∈ colors, c.length = n) :
    (ofPoints kind points colors).HasComponents n := by
  have hget (i : ℕ) (hi : i < 4) : colors[i].length = n := h _ (Vector.getElem_mem hi)
  exact ⟨hget 0 (by decide), hget 1 (by decide), hget 2 (by decide), hget 3 (by decide)⟩

theorem hasComponents_behind {p : Patch ℚ C} (hp : p.HasComponents n)
    {r : PatchRecord ℚ C kind} (hr : r.HasComponents n) : (r.behind p).HasComponents n := by
  obtain ⟨h00, h01, h11, h10⟩ := hp
  cases r with
  | fresh points colors => exact hasComponents_ofPoints points hr
  | joined side points colors =>
    obtain ⟨e00, e01, e11, e10⟩ := colors_ofSide kind (p.sideAt side) points colors
    have hget (i : ℕ) (hi : i < 2) : colors[i].length = n := hr _ (Vector.getElem_mem hi)
    refine ⟨?_, ?_, (congrArg List.length e11).trans (hget 0 (by decide)),
      (congrArg List.length e10).trans (hget 1 (by decide))⟩
    · refine (congrArg List.length e00).trans ?_
      cases side <;> assumption
    · refine (congrArg List.length e01).trans ?_
      cases side <;> assumption

theorem meets_behind [Channel C ℚ] {p : Patch ℚ C} (hp : p.HasComponents n)
    {r : PatchRecord ℚ C kind} {side : Side} (hr : r.side? = some side) :
    p.Meets (r.behind p) side := by
  cases r with
  | fresh points colors => cases hr
  | joined side' points colors =>
    cases hr
    exact meets_ofSide hp kind side points colors

end Patch

namespace PatchMesh

/-! ## What is read -/

section Reading

variable {K C : Type} [Scalar K] [Channel C K]

theorem yields_color (f : VertexFormat K) :
    Yields (f.color : BitParser (Color C)) fun c => c.length = f.components :=
  Yields.length_mapM f.colorRanges _

omit [Scalar K] in
theorem yields_edgeFlag (f : FlaggedFormat K) : Yields f.edgeFlag (· < 4) :=
  (Yields.trivial _).bind fun _ _ => Yields.pure (Nat.mod_lt _ (by decide))

theorem yields_record (f : FlaggedFormat K) (t : Affine K) (kind : PatchKind) (flag : ℕ) :
    Yields (record f t kind flag : BitParser (PatchRecord K C kind)) fun r =>
      r.side? = Side.ofFlag? flag ∧ r.HasComponents f.components := by
  have hcolors (n : ℕ) := (yields_color (C := C) f.toVertexFormat).times n
  unfold record
  cases Side.ofFlag? flag with
  | none =>
    refine (Yields.trivial _).bind fun points _ => (hcolors 4).bind fun colors hc => ?_
    exact Yields.pure ⟨rfl, hc⟩
  | some side =>
    refine (Yields.trivial _).bind fun points _ => (hcolors 2).bind fun colors hc => ?_
    exact Yields.pure ⟨rfl, hc⟩

end Reading

/-! ## From record to record -/

section Assembly

variable {C : Type} {kind : PatchKind} {n : ℕ}

theorem value_assemble_cons (last : Patch ℚ C) (r : PatchRecord ℚ C kind)
    (rs : List (PatchRecord ℚ C kind)) :
    (assemble (some last) (r :: rs)).value =
      r.behind last :: (assemble (some (r.behind last)) rs).value := by
  cases r <;> rfl

theorem length_assemble (last : Patch ℚ C) (rs : List (PatchRecord ℚ C kind)) :
    (assemble (some last) rs).value.length = rs.length := by
  induction rs generalizing last with
  | nil => rfl
  | cons r rs ih => rw [value_assemble_cons, List.length_cons, List.length_cons, ih]

/-- A record with its flag is one that joins on if and only if the flag names a side. -/
def Labelled (n : ℕ) (x : ℕ × PatchRecord ℚ C kind) : Prop :=
  x.1 < 4 ∧ x.2.side? = Side.ofFlag? x.1 ∧ x.2.HasComponents n

/-- Behind a patch every record makes a patch behind the patch of the record before it. -/
theorem getElem?_assemble {last : Patch ℚ C} {xs : List (ℕ × PatchRecord ℚ C kind)}
    (hlast : last.HasComponents n) (hxs : ∀ x ∈ xs, Labelled n x) {i flag : ℕ}
    {record : PatchRecord ℚ C kind} (h : xs[i]? = some (flag, record)) :
    let rest := (assemble (some last) (xs.map Prod.snd)).value
    ∃ p, p.HasComponents n ∧ (last :: rest)[i]? = some p ∧ rest[i]? = some (record.behind p) := by
  induction xs generalizing last i with
  | nil => cases h
  | cons x xs ih =>
    rw [List.map_cons, value_assemble_cons]
    cases i with
    | zero =>
      cases h
      exact ⟨last, hlast, rfl, rfl⟩
    | succ i =>
      obtain ⟨-, -, hcolors⟩ := hxs x List.mem_cons_self
      have hnext := Patch.hasComponents_behind hlast hcolors
      exact ih hnext (fun y hy => hxs y (List.mem_cons_of_mem x hy)) h

theorem exists_ofFlag? {flag : ℕ} (hlt : flag < 4) (hne : flag ≠ 0) :
    ∃ side, Side.ofFlag? flag = some side := by
  interval_cases flag
  · exact absurd rfl hne
  · exact ⟨.vOne, rfl⟩
  · exact ⟨.uOne, rfl⟩
  · exact ⟨.vZero, rfl⟩

/-- Records that join on to nothing make no patches. -/
theorem value_assemble_none {xs : List (ℕ × PatchRecord ℚ C kind)}
    (hxs : ∀ x ∈ xs, Labelled n x) :
    (assemble none (xs.map Prod.snd)).value =
      (assemble none ((xs.dropWhile (·.1 != 0)).map Prod.snd)).value := by
  induction xs with
  | nil => rfl
  | cons x xs ih =>
    obtain ⟨flag, r⟩ := x
    obtain ⟨hlt, hside, -⟩ := hxs _ List.mem_cons_self
    by_cases hflag : flag = 0
    · rw [List.dropWhile_cons_of_neg (by simp [hflag])]
    · rw [List.dropWhile_cons_of_pos (by simp [hflag])]
      obtain ⟨side, hsome⟩ := exists_ofFlag? hlt hflag
      cases r with
      | fresh points colors => cases hside.trans hsome
      | joined side' points colors => exact ih fun y hy => hxs y (List.mem_cons_of_mem _ hy)

/-- Labelled records that begin with flag zero make a patch each, and one that joins on makes a
patch that meets the one before it. -/
theorem assemble_meets [Channel C ℚ] {xs : List (ℕ × PatchRecord ℚ C kind)}
    (hxs : ∀ x ∈ xs, Labelled n x) (hfirst : ∀ x ∈ xs.head?, x.1 = 0) :
    let patches := (assemble none (xs.map Prod.snd)).value
    patches.length = xs.length ∧
      ∀ i q flag record, patches[i]? = some q → xs[i]? = some (flag, record) → flag ≠ 0 →
        ∃ j p side, i = j + 1 ∧ patches[j]? = some p ∧ Side.ofFlag? flag = some side ∧
          q = record.behind p ∧ p.Meets q side := by
  cases xs with
  | nil => exact ⟨rfl, fun i q flag record hq => by cases hq⟩
  | cons x xs =>
    obtain ⟨flag₀, r⟩ := x
    obtain ⟨-, hside, hcolors⟩ := hxs _ List.mem_cons_self
    cases hfirst _ rfl
    cases r with
    | joined side points colors => cases hside
    | fresh points colors =>
      intro patches
      -- The first patch is made of its own points, and all others behind it.
      let first := Patch.ofPoints kind points colors
      have hpatches : patches = first :: (assemble (some first) (xs.map Prod.snd)).value := rfl
      rw [hpatches]
      refine ⟨?_, ?_⟩
      · rw [List.length_cons, List.length_cons, length_assemble, List.length_map]
      · intro i q flag record hq hrecord hflag
        cases i with
        | zero =>
          cases hrecord
          exact absurd rfl hflag
        | succ j =>
          have hlater : ∀ x ∈ xs, Labelled n x := fun x hx => hxs x (List.mem_cons_of_mem _ hx)
          have hcorners := Patch.hasComponents_ofPoints points hcolors
          obtain ⟨p, hp, hbefore, hmade⟩ := getElem?_assemble hcorners hlater hrecord
          obtain ⟨hlt, hlabel, -⟩ := hlater _ (List.mem_of_getElem? hrecord)
          obtain ⟨side, hside⟩ := exists_ofFlag? hlt hflag
          cases Option.some.inj (hq.symm.trans hmade)
          exact ⟨j, p, side, rfl, hbefore, hside, rfl, Patch.meets_behind hp (hlabel.trans hside)⟩

end Assembly

variable {C : Type} [Channel C ℚ]

/-- The records that the patches of a stream are made of, each with its flag: those before the first
one with flag zero make none. -/
def sources (f : FlaggedFormat ℚ) (t : Affine ℚ) (kind : PatchKind) (data : Array UInt8) :
    List (ℕ × PatchRecord ℚ C kind) :=
  (Records.headed f.edgeFlag (record f t kind) (Reader.ofBytes data)).dropWhile (·.1 != 0)

theorem labelled_of_mem_headed (f : FlaggedFormat ℚ) (t : Affine ℚ) (kind : PatchKind)
    (r : Reader) :
    ∀ x ∈ Records.headed f.edgeFlag (record (C := C) f t kind) r, Labelled f.components x := by
  refine Records.forall_mem_headed (P := fun flag r => Labelled f.components (flag, r)) ?_ r
  intro s flag u hflag s' record u' hrecord
  obtain ⟨hside, hcolors⟩ := yields_record f t kind flag s' record u' hrecord
  exact ⟨yields_edgeFlag f s flag u hflag, hside, hcolors⟩

theorem value_decode (f : FlaggedFormat ℚ) (t : Affine ℚ) (kind : PatchKind)
    (data : Array UInt8) :
    (decode f t kind data : Reported (List (Patch ℚ C))).value =
      (assemble none ((sources f t kind data).map Prod.snd)).value := by
  have hlabels := labelled_of_mem_headed (C := C) f t kind (Reader.ofBytes data)
  rw [sources, ← value_assemble_none hlabels, Records.map_headed]
  rfl

theorem labelled_of_mem_sources (f : FlaggedFormat ℚ) (t : Affine ℚ) (kind : PatchKind)
    (data : Array UInt8) : ∀ x ∈ sources (C := C) f t kind data, Labelled f.components x := by
  intro x hx
  exact labelled_of_mem_headed f t kind _ x ((List.dropWhile_sublist _).subset hx)

theorem flag_of_mem_head?_sources (f : FlaggedFormat ℚ) (t : Affine ℚ) (kind : PatchKind)
    (data : Array UInt8) : ∀ x ∈ (sources (C := C) f t kind data).head?, x.1 = 0 := by
  intro x hx
  have hdropped := List.head?_dropWhile_not (fun x : ℕ × PatchRecord ℚ C kind => x.1 != 0)
    (Records.headed f.edgeFlag (record f t kind) (Reader.ofBytes data))
  rw [show (List.dropWhile _ _).head? = some x from hx] at hdropped
  exact bne_eq_false_iff_eq.mp hdropped

/-- Every patch comes from a record, in the order of the stream. If the flag of the record is not
zero, the patch is made behind the one before it, and begins where that one has the side that the
flag names: along the whole side both have the same points and the same colors. -/
theorem decode_meets (f : FlaggedFormat ℚ) (t : Affine ℚ) (kind : PatchKind)
    (data : Array UInt8) :
    let patches := (decode f t kind data : Reported (List (Patch ℚ C))).value
    let sources := sources f t kind data
    patches.length = sources.length ∧
      ∀ i q flag record, patches[i]? = some q → sources[i]? = some (flag, record) → flag ≠ 0 →
        ∃ j p side, i = j + 1 ∧ patches[j]? = some p ∧ Side.ofFlag? flag = some side ∧
          q = record.behind p ∧ p.Meets q side := by
  intro patches sources
  have hpatches : patches = (assemble none (sources.map Prod.snd)).value :=
    value_decode f t kind data
  rw [hpatches]
  exact assemble_meets (labelled_of_mem_sources f t kind data)
    (flag_of_mem_head?_sources f t kind data)

end PatchMesh

end SmoothShading
