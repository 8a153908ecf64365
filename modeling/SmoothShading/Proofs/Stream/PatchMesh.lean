import Mathlib
import SmoothShading.Proofs.Stream.Records
import SmoothShading.Proofs.Stream.Samples
import SmoothShading.Stream.PatchMesh

/-!
# Decoding what was written: patch meshes

A stream that is written record by record, field by field and without padding is decoded to the
patches that the records stand for (`PatchMesh.decode_encode_eq_fold`). What they stand for is a
fold over the records, `PatchMesh.extend`: a record with a flag of zero adds a patch of its own, and
any other one adds a patch to the side of the last patch that its flag names, or is missing that
patch.

The decoder works in two steps, which the proof follows. The records are read from the bits that
were written for them (`PatchSamples.readsRecord`), and their assembly is the fold, where the last
patch of the fold is what the assembly carries along (`PatchMesh.foldl_extend`).
-/

namespace SmoothShading

open Bits

/-- The numbers that a record of a patch mesh is written from. As many points and colors follow the
flag as the flag asks for. -/
inductive PatchSamples {K : Type} (f : FlaggedFormat K) (kind : PatchKind) where
  /-- The two lowest bits of the flag are zero. -/
  | fresh (flag : ℕ) (hflag : f.flag.kept flag % 4 = 0)
      (points : Vector PointSamples kind.points) (colors : Vector (Vector ℕ f.components) 4)
  /-- The two lowest bits of the flag name a side. -/
  | joined (flag : ℕ) (side : Side) (hflag : Side.ofFlag? (f.flag.kept flag % 4) = some side)
      (points : Vector PointSamples kind.innerPoints) (colors : Vector (Vector ℕ f.components) 2)

namespace PatchSamples

variable {K C : Type} {f : FlaggedFormat K} {kind : PatchKind}

def flag : PatchSamples f kind → ℕ
  | fresh flag .. | joined flag .. => flag

def points : PatchSamples f kind → List PointSamples
  | fresh _ _ points _ => points.toList
  | joined _ _ _ points _ => points.toList

def colors : PatchSamples f kind → List (Vector ℕ f.components)
  | fresh _ _ _ colors => colors.toList
  | joined _ _ _ _ colors => colors.toList

/-- Whether a record takes a side of the patch before it. -/
def joins : PatchSamples f kind → Bool
  | fresh .. => false
  | joined .. => true

/-- Writes the flag, then the points, then the colors. -/
def write (w : Writer) (s : PatchSamples f kind) : Writer :=
  s.colors.foldl f.writeColor (s.points.foldl f.writePoint (w.write s.flag f.flag))

def bits (s : PatchSamples f kind) : List Bool :=
  expand f.flag.bits s.flag ++ (s.points.flatMap f.pointBits ++ s.colors.flatMap f.colorBits)

theorem holds_write {w : Writer} {bs : List Bool} (h : w.Holds bs) (s : PatchSamples f kind) :
    (s.write w).Holds (bs ++ s.bits) := by
  have hflag := h.write s.flag f.flag
  have hpoints := hflag.foldl_packed s.points fun p w bs hw => f.holds_writePoint hw p
  have hcolors := hpoints.foldl_packed s.colors fun c w bs hw => f.holds_writeColor hw c
  rw [List.append_assoc, List.append_assoc] at hcolors
  exact hcolors

/-- No record is so short that it could be taken for padding. -/
theorem eight_le_length_bits (s : PatchSamples f kind) : 8 ≤ s.bits.length := by
  have hcount : 8 ≤ s.points.length := by
    cases s <;> simp only [points, Vector.length_toList] <;> cases kind <;> decide
  have hpoints : (s.points.flatMap f.pointBits).length =
      s.points.length * (2 * f.coordinate.bits) := by
    simp [List.length_flatMap]
  have hpos := f.coordinate.pos
  have hbits : 8 * (2 * 1) ≤ s.points.length * (2 * f.coordinate.bits) :=
    Nat.mul_le_mul hcount (Nat.mul_le_mul_left 2 hpos)
  simp only [bits, List.length_append, hpoints]
  omega

variable [Scalar K] [Channel C K]

/-- What the samples of a record stand for. -/
def record (t : Affine K) : PatchSamples f kind → PatchRecord K C kind
  | fresh _ _ points colors => .fresh (points.map (f.pointOf t)) (colors.map f.colorOf)
  | joined _ side _ points colors => .joined side (points.map (f.pointOf t)) (colors.map f.colorOf)

/-- Behind the flag, points and colors are read as many as the flag asks for. -/
theorem reads_body (start : ℕ) (t : Affine K) (s : PatchSamples f kind) :
    Reads start (PatchMesh.record f t kind (f.flag.kept s.flag % 4))
      (s.points.flatMap f.pointBits ++ s.colors.flatMap f.colorBits)
      (s.record t : PatchRecord K C kind) := by
  have hpoint (p : PointSamples) (start : ℕ) := f.reads_point start t p
  have hcolor (c : Vector ℕ f.components) (start : ℕ) :=
    VertexFormat.reads_color (C := C) start c
  cases s with
  | fresh flag hflag points colors =>
    simp only [PatchMesh.record, PatchSamples.flag, hflag, Side.ofFlag?]
    exact (Reads.times points hpoint).bind ((Reads.times colors hcolor).bind_pure
      (PatchRecord.fresh (points.map (f.pointOf t))))
  | joined flag side hflag points colors =>
    simp only [PatchMesh.record, PatchSamples.flag, hflag]
    exact (Reads.times points hpoint).bind ((Reads.times colors hcolor).bind_pure
      (PatchRecord.joined side (points.map (f.pointOf t))))

theorem readsRecord (start : ℕ) (t : Affine K) (s : PatchSamples f kind) :
    Records.ReadsRecord f.edgeFlag (PatchMesh.record f t kind) start s.bits
      (s.record t : PatchRecord K C kind) :=
  ⟨_, _, _, rfl, f.reads_edgeFlag start s.flag, s.reads_body _ t⟩

end PatchSamples

namespace PatchMesh

variable {K C : Type} {f : FlaggedFormat K} {kind : PatchKind}

/-- The stream of some records, packed without padding. -/
def encode (records : List (PatchSamples f kind)) : Array UInt8 :=
  (records.foldl PatchSamples.write Writer.empty).bytes

variable [Scalar K] [Channel C K]

/-- Goes on by one record. The last patch so far is the one that a record may join. -/
def extend (t : Affine K) (sofar : Reported (List (Patch K C))) :
    PatchSamples f kind → Reported (List (Patch K C))
  | .fresh _ _ points colors =>
    let p : Patch K C := .ofPoints kind (points.map (f.pointOf t)) (colors.map f.colorOf)
    ⟨sofar.value ++ [p], sofar.warnings⟩
  | .joined _ side _ points colors =>
    match sofar.value.getLast? with
    | some last =>
      let edge := last.sideAt side
      let edgePoints := #v[edge.curve.p0, edge.curve.p1, edge.curve.p2, edge.curve.p3]
      let edgeColors := #v[edge.startColor, edge.stopColor]
      let ownColors : Vector (Color C) 2 := colors.map f.colorOf
      let p : Patch K C :=
        .ofPoints kind (edgePoints ++ points.map (f.pointOf t)) (edgeColors ++ ownColors)
      ⟨sofar.value ++ [p], sofar.warnings⟩
    | none => ⟨sofar.value, sofar.warnings ++ [.missingPredecessor]⟩

/-- Behind a patch every record gives one more, and nothing is reported. -/
theorem foldl_extend_of_ne_nil (t : Affine K) (records : List (PatchSamples f kind))
    {sofar : Reported (List (Patch K C))} (h : sofar.value ≠ []) :
    (records.foldl (extend t) sofar).warnings = sofar.warnings ∧
      (records.foldl (extend t) sofar).value.length = sofar.value.length + records.length := by
  induction records generalizing sofar with
  | nil => exact ⟨rfl, rfl⟩
  | cons s records ih =>
    have hstep : ∃ p, extend t sofar s = ⟨sofar.value ++ [p], sofar.warnings⟩ := by
      cases s with
      | fresh flag hflag points colors => exact ⟨_, rfl⟩
      | joined flag side hflag points colors =>
        obtain ⟨last, hlast⟩ := Option.ne_none_iff_exists'.mp (mt List.getLast?_eq_none_iff.mp h)
        simp only [extend, hlast]
        exact ⟨_, rfl⟩
    obtain ⟨p, hp⟩ := hstep
    rw [List.foldl_cons, hp]
    have hne : (⟨sofar.value ++ [p], sofar.warnings⟩ : Reported (List (Patch K C))).value ≠ [] :=
      List.concat_ne_nil p sofar.value
    obtain ⟨hwarnings, hlength⟩ := ih hne
    refine ⟨hwarnings, ?_⟩
    rw [hlength]
    simp only [List.length_append, List.length_cons, List.length_nil]
    omega

/-- Before the first patch the records that join are left out, each with a warning, and from the
first record on that does not join, every record gives a patch. -/
theorem foldl_extend_of_nil (t : Affine K) (records : List (PatchSamples f kind))
    (warnings : List Warning) :
    let result : Reported (List (Patch K C)) := records.foldl (extend t) ⟨[], warnings⟩
    result.warnings = warnings ++
        List.replicate (records.takeWhile PatchSamples.joins).length .missingPredecessor ∧
      result.value.length = (records.dropWhile PatchSamples.joins).length := by
  induction records generalizing warnings with
  | nil => simp
  | cons s records ih =>
    cases s with
    | fresh flag hflag points colors =>
      have hne : (extend t (⟨[], warnings⟩ : Reported (List (Patch K C)))
          (.fresh flag hflag points colors)).value ≠ [] := List.cons_ne_nil _ _
      obtain ⟨hwarnings, hlength⟩ := foldl_extend_of_ne_nil t records hne
      intro result
      refine ⟨hwarnings.trans ?_, hlength.trans ?_⟩
      · rw [List.takeWhile_cons_of_neg Bool.false_ne_true]
        exact (List.append_nil warnings).symm
      · rw [List.dropWhile_cons_of_neg Bool.false_ne_true, List.length_cons, Nat.add_comm]
        rfl
    | joined flag side hflag points colors =>
      obtain ⟨hwarnings, hlength⟩ := ih (warnings ++ [.missingPredecessor])
      intro result
      refine ⟨hwarnings.trans ?_, hlength.trans ?_⟩
      · rw [List.takeWhile_cons_of_pos rfl, List.length_cons, List.replicate_succ,
          List.append_assoc, List.singleton_append]
      · rw [List.dropWhile_cons_of_pos rfl]

/-- The assembly of records is the fold over them: the patch that it carries along is the last one
of the fold. -/
theorem foldl_extend (t : Affine K) (records : List (PatchSamples f kind))
    (sofar : Reported (List (Patch K C))) :
    let rest := assemble sofar.value.getLast? (records.map (PatchSamples.record t))
    records.foldl (extend t) sofar =
      ⟨sofar.value ++ rest.value, sofar.warnings ++ rest.warnings⟩ := by
  induction records generalizing sofar with
  | nil => simp [assemble, Reported.pure]
  | cons s records ih =>
    rw [List.foldl_cons, ih]
    cases s with
    | fresh flag hflag points colors =>
      simp [extend, assemble, PatchSamples.record, Reported.map]
    | joined flag side hflag points colors =>
      cases hlast : sofar.value.getLast? with
      | none =>
        simp [extend, assemble, PatchSamples.record, Reported.after, hlast]
      | some last =>
        simp [extend, assemble, PatchSamples.record, Reported.map, Patch.ofSide, hlast]

theorem records_encode (t : Affine K) (records : List (PatchSamples f kind)) :
    PatchMesh.records f t kind (encode records) =
      ⟨records.map (PatchSamples.record t : _ → PatchRecord K C kind), .padding⟩ := by
  have hw := Writer.Holds.empty.foldl_packed records fun s w bs hw => s.holds_write hw
  exact Records.read_of_holds records (fun s _ start _ => s.readsRecord start t)
    (fun s _ => one_dvd s.bits.length) (fun s _ => s.eight_le_length_bits) hw

/-- A stream that was written record by record is decoded to what its records stand for. The only
warnings are those of the records that join before the first patch, and every later record gives a
patch. -/
theorem decode_encode_eq_fold (t : Affine K) (records : List (PatchSamples f kind)) :
    let decoded : Reported (List (Patch K C)) := decode f t kind (encode records)
    decoded = records.foldl (extend t) (.pure []) ∧
      decoded.warnings =
        List.replicate (records.takeWhile PatchSamples.joins).length .missingPredecessor ∧
      decoded.value.length = (records.dropWhile PatchSamples.joins).length := by
  intro decoded
  have hfold : decoded = records.foldl (extend t) (.pure []) := by
    rw [foldl_extend]
    simp [decoded, decode, records_encode, Tail.isCut, Reported.pure]
  refine ⟨hfold, ?_⟩
  rw [hfold]
  exact foldl_extend_of_nil t records []

end PatchMesh

end SmoothShading
