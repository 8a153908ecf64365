import Mathlib
import SmoothShading.Proofs.Stream.Records
import SmoothShading.Proofs.Stream.Samples
import SmoothShading.Stream.FreeForm

/-!
# Decoding what was written: free-form meshes

A stream of flagged vertices, each of which fills its last byte, is decoded to the triangles and
warnings of a machine that takes one record after another (`FreeForm.decode_encode_eq_machine`). The
machine (`FreeForm.step`) is idle, or has the first or the first two vertices of a fresh triangle.

The decoder takes the three records of a fresh triangle at once. To compare both, the vertices that
the machine has kept are put back before the records to come, with flags that raise no warning
(`FreeForm.Phase.pending`); then one record moves both sides alike.
-/

namespace SmoothShading

open Bits

/-- The numbers that a record of a free-form mesh is written from. -/
structure FlaggedSamples (n : ℕ) where
  flag : ℕ
  vertex : VertexSamples n

namespace FreeForm

variable {K C : Type}

/-! ## The machine -/

/-- How much of a fresh triangle there is. -/
inductive Phase (K C : Type) where
  | idle
  | opened (a : Vertex K C)
  | halfway (a b : Vertex K C)

/-- What a mesh has come to after some records. -/
structure Progress (K C : Type) where
  phase : Phase K C
  triangles : List (Triangle K C)
  warnings : List Warning

namespace Progress

def start : Progress K C := ⟨.idle, [], []⟩

def report (p : Progress K C) (w : Warning) : Progress K C :=
  { p with warnings := p.warnings ++ [w] }

/-- Reports the flag of a vertex that completes a fresh triangle, unless it is zero. -/
def judge (p : Progress K C) (flag : ℕ) : Progress K C :=
  if flag = 0 then p else p.report .invalidFlag

/-- Adds a triangle that is made with the last one. -/
def join (p : Progress K C) (f : Triangle K C → Triangle K C) : Progress K C :=
  match p.triangles.getLast? with
  | some last => { p with triangles := p.triangles ++ [f last] }
  | none => p.report .missingPredecessor

/-- One step: a vertex with a flag from zero to three. -/
def next (p : Progress K C) (flag : ℕ) (v : Vertex K C) : Progress K C :=
  match p.phase with
  | .opened a => { p.judge flag with phase := .halfway a v }
  | .halfway a b =>
    let p := p.judge flag
    ⟨.idle, p.triangles ++ [⟨a, b, v⟩], p.warnings⟩
  | .idle =>
    match flag with
    | 0 => { p with phase := .opened v }
    | 1 => p.join fun last => ⟨last.b, last.c, v⟩
    | 2 => p.join fun last => ⟨last.a, last.c, v⟩
    | _ => p.report .invalidFlag

/-- The result at the end of the records. A fresh triangle that is not complete is cut off. -/
def finish (p : Progress K C) : Reported (List (Triangle K C)) :=
  match p.phase with
  | .idle => ⟨p.triangles, p.warnings⟩
  | _ => ⟨p.triangles, p.warnings ++ [.truncatedStream]⟩

end Progress

/-- The machine takes a record. -/
def step [Scalar K] [Channel C K] (f : FlaggedFormat K) (t : Affine K) (p : Progress K C)
    (s : FlaggedSamples f.components) : Progress K C :=
  p.next (f.flag.kept s.flag % 4) (f.vertexOf t s.vertex)

/-! ## The machine and the assembly -/

/-- The records of the vertices that the machine has kept, without their warnings. -/
def Phase.pending : Phase K C → List (FlaggedVertex K C)
  | idle => []
  | opened a => [⟨.fresh, a⟩]
  | halfway a b => [⟨.fresh, a⟩, ⟨.fresh, b⟩]

/-- The warning of an inner flag comes before all others, and its vertex does not depend on it. -/
theorem assemble_inner (tail : Tail EdgeFlag) (last? : Option (Triangle K C)) (a b : Vertex K C)
    (flag : EdgeFlag) (rest : List (FlaggedVertex K C)) :
    assemble tail last? (⟨.fresh, a⟩ :: ⟨flag, b⟩ :: rest) =
      (assemble tail last? (⟨.fresh, a⟩ :: ⟨.fresh, b⟩ :: rest)).after (innerWarnings flag) := by
  cases rest <;> simp [assemble, innerWarnings, Reported.after, Reported.map]

/-- What comes of the machine if the decoder goes on in its place. -/
def Progress.resume (p : Progress K C) (rest : List (FlaggedVertex K C)) :
    Reported (List (Triangle K C)) :=
  let assembled := assemble .padding p.triangles.getLast? (p.phase.pending ++ rest)
  ⟨p.triangles ++ assembled.value, p.warnings ++ assembled.warnings⟩

namespace Progress

theorem resume_nil (p : Progress K C) : p.resume [] = p.finish := by
  obtain ⟨phase, triangles, warnings⟩ := p
  cases phase <;>
    simp [resume, finish, Phase.pending, assemble, innerWarnings, innerTail, outerTail]

theorem judge_eq (p : Progress K C) {flag : ℕ} (h : flag < 4) :
    p.judge flag = { p with warnings := p.warnings ++ innerWarnings (EdgeFlag.ofSample flag) } := by
  interval_cases flag <;> simp [judge, report, innerWarnings, EdgeFlag.ofSample]

/-- A record moves the machine as it moves the assembly. -/
theorem resume_next (p : Progress K C) {flag : ℕ} (h : flag < 4) (v : Vertex K C)
    (rest : List (FlaggedVertex K C)) :
    (p.next flag v).resume rest = p.resume (⟨EdgeFlag.ofSample flag, v⟩ :: rest) := by
  obtain ⟨phase, triangles, warnings⟩ := p
  cases phase with
  | opened a =>
    simp only [next, judge_eq _ h, resume, Phase.pending, List.cons_append, List.nil_append]
    rw [assemble_inner _ _ _ _ (EdgeFlag.ofSample flag)]
    simp [Reported.after]
  | halfway a b =>
    simp only [next, judge_eq _ h, resume, Phase.pending, List.cons_append, List.nil_append]
    simp [assemble, innerWarnings, Reported.after, Reported.map]
  | idle =>
    interval_cases flag
    · rfl
    · cases hlast : triangles.getLast? <;>
        simp [next, join, report, resume, Phase.pending, EdgeFlag.ofSample, assemble,
          Reported.map, Reported.after, hlast]
    · cases hlast : triangles.getLast? <;>
        simp [next, join, report, resume, Phase.pending, EdgeFlag.ofSample, assemble,
          Reported.map, Reported.after, hlast]
    · simp [next, report, resume, Phase.pending, EdgeFlag.ofSample, assemble, Reported.after]

end Progress

end FreeForm

/-! ## Writing and reading records -/

namespace FlaggedSamples

variable {K C : Type} {f : FlaggedFormat K}

/-- Writes the flag, then the vertex, and fills the last byte. -/
def write (f : FlaggedFormat K) (w : Writer) (s : FlaggedSamples f.components) : Writer :=
  f.writeVertex (w.write s.flag f.flag) s.vertex

/-- The bits of a record that begins with a byte. -/
def bits (f : FlaggedFormat K) (s : FlaggedSamples f.components) : List Bool :=
  expand f.flag.bits s.flag ++ f.vertexBits f.flag.bits s.vertex

theorem dvd_length_bits (s : FlaggedSamples f.components) : 8 ∣ (s.bits f).length := by
  rw [bits, List.length_append, length_expand]
  exact f.dvd_length_vertexBits f.flag.bits s.vertex

theorem eight_le_length_bits (s : FlaggedSamples f.components) : 8 ≤ (s.bits f).length := by
  refine Nat.le_of_dvd ?_ s.dvd_length_bits
  rw [bits, List.length_append, length_expand]
  have := f.flag.pos
  omega

theorem holds_write {w : Writer} {bs : List Bool} (h : w.Holds bs) (hbs : 8 ∣ bs.length)
    (s : FlaggedSamples f.components) : (s.write f w).Holds (bs ++ s.bits f) := by
  have hflag := h.write s.flag f.flag
  have hstart : (bs ++ expand f.flag.bits s.flag).length % 8 = f.flag.bits % 8 := by
    rw [List.length_append, length_expand]
    omega
  have hvertex := f.holds_writeVertex hflag hstart s.vertex
  rw [List.append_assoc] at hvertex
  exact hvertex

variable [Scalar K] [Channel C K]

/-- What the samples of a record stand for. -/
def record (f : FlaggedFormat K) (t : Affine K) (s : FlaggedSamples f.components) :
    FlaggedVertex K C :=
  ⟨EdgeFlag.ofSample (f.flag.kept s.flag % 4), f.vertexOf t s.vertex⟩

theorem readsRecord {start : ℕ} (hstart : 8 ∣ start) (t : Affine K)
    (s : FlaggedSamples f.components) :
    Records.ReadsRecord (EdgeFlag.ofSample <$> f.edgeFlag)
      (fun flag => FlaggedVertex.mk flag <$> f.vertex t) start (s.bits f)
      (s.record f t : FlaggedVertex K C) := by
  refine ⟨_, _, _, rfl, (f.reads_edgeFlag start s.flag).map EdgeFlag.ofSample, ?_⟩
  have hvertex := VertexFormat.reads_vertex (C := C) (f := f.toVertexFormat) f.flag.bits t s.vertex
  rw [length_expand]
  intro r hr hocc
  exact hvertex.map _ r (by omega) hocc

end FlaggedSamples

namespace FreeForm

variable {K C : Type} {f : FlaggedFormat K}

/-- The stream of some records, each of which fills its last byte. -/
def encode (f : FlaggedFormat K) (records : List (FlaggedSamples f.components)) : Array UInt8 :=
  (records.foldl (FlaggedSamples.write f) Writer.empty).bytes

variable [Scalar K] [Channel C K]

theorem finish_foldl_step (t : Affine K) (records : List (FlaggedSamples f.components))
    (p : Progress K C) :
    (records.foldl (step f t) p).finish = p.resume (records.map (FlaggedSamples.record f t)) := by
  induction records generalizing p with
  | nil => exact p.resume_nil.symm
  | cons s records ih =>
    rw [List.foldl_cons, ih, step, p.resume_next (Nat.mod_lt _ (by decide))]
    rfl

theorem records_encode (t : Affine K) (records : List (FlaggedSamples f.components)) :
    FreeForm.records f t (encode f records) =
      ⟨records.map (FlaggedSamples.record f t : _ → FlaggedVertex K C), .padding⟩ := by
  have hw := Writer.Holds.empty.foldl records (fun s _ => s.dvd_length_bits)
    (fun s _ w bs hbs hw => s.holds_write hw hbs) (Nat.dvd_zero 8)
  exact Records.read_of_holds records (fun s _ start hstart => s.readsRecord hstart t)
    (fun s _ => s.dvd_length_bits) (fun s _ => s.eight_le_length_bits) hw

/-- A stream that was written record by record is decoded to the triangles and the warnings of the
machine that takes these records. -/
theorem decode_encode_eq_machine (t : Affine K) (records : List (FlaggedSamples f.components)) :
    (decode f t (encode f records) : Reported (List (Triangle K C))) =
      (records.foldl (step f t) Progress.start).finish := by
  rw [finish_foldl_step]
  simp [decode, records_encode, Progress.resume, Progress.start, Phase.pending]

end FreeForm

end SmoothShading
