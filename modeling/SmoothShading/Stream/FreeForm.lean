import SmoothShading.Mesh.Triangle
import SmoothShading.Report
import SmoothShading.Stream.Layout
import SmoothShading.Stream.Records

/-!
# Free-form triangle meshes

Every record is a flag and a vertex. A vertex with flag zero begins a triangle, and the two records
after it complete that triangle whatever their flags are. The flags one and two add a vertex to an
edge of the triangle before, and three means nothing.
-/

namespace SmoothShading

/-- What a vertex is to the triangles before it. -/
inductive EdgeFlag where
  /-- The vertex begins a triangle. -/
  | fresh
  /-- The vertex makes a triangle with the second and the third corner of the one before. -/
  | joinBC
  /-- The vertex makes a triangle with the first and the third corner of the one before. -/
  | joinAC
  /-- The flag means nothing. -/
  | invalid
deriving DecidableEq

/-- The meaning of the two lowest bits of a flag. -/
def EdgeFlag.ofSample : Nat → EdgeFlag
  | 0 => fresh
  | 1 => joinBC
  | 2 => joinAC
  | _ => invalid

/-- A record of a free-form mesh. -/
structure FlaggedVertex (K C : Type) where
  flag : EdgeFlag
  vertex : Vertex K C

namespace FreeForm

variable {K C : Type}

/-- The flag of a record that completes a triangle should be zero, and is otherwise ignored. -/
def innerWarnings : EdgeFlag → List Warning
  | .fresh => []
  | _ => [.invalidFlag]

/-- The warnings of a stream that ends between two triangles. -/
def outerTail : Tail EdgeFlag → List Warning
  | .padding => []
  | _ => [.truncatedStream]

/-- The warnings of a stream that ends within a triangle. A flag that was read is judged even if the
vertex behind it is cut off. -/
def innerTail : Tail EdgeFlag → List Warning
  | .cutBody flag => innerWarnings flag ++ [.truncatedStream]
  | _ => [.truncatedStream]

/-- The triangles of the records from here on, where `last?` is the triangle before them. -/
def assemble (tail : Tail EdgeFlag) (last? : Option (Triangle K C)) :
    List (FlaggedVertex K C) → Reported (List (Triangle K C))
  | [] => ⟨[], outerTail tail⟩
  | ⟨.fresh, _⟩ :: [] => ⟨[], innerTail tail⟩
  | ⟨.fresh, _⟩ :: r :: [] => ⟨[], innerWarnings r.flag ++ innerTail tail⟩
  | ⟨.fresh, a⟩ :: r :: s :: rest =>
    let t : Triangle K C := ⟨a, r.vertex, s.vertex⟩
    let flagWarnings := innerWarnings r.flag ++ innerWarnings s.flag
    ((assemble tail (some t) rest).map (t :: ·)).after flagWarnings
  | ⟨.joinBC, v⟩ :: rest =>
    match last? with
    | some last =>
      let t : Triangle K C := ⟨last.b, last.c, v⟩
      (assemble tail (some t) rest).map (t :: ·)
    | none => (assemble tail none rest).after [.missingPredecessor]
  | ⟨.joinAC, v⟩ :: rest =>
    match last? with
    | some last =>
      let t : Triangle K C := ⟨last.a, last.c, v⟩
      (assemble tail (some t) rest).map (t :: ·)
    | none => (assemble tail none rest).after [.missingPredecessor]
  | ⟨.invalid, _⟩ :: rest => (assemble tail last? rest).after [.invalidFlag]

variable [Scalar K] [Channel C K]

/-- The records of a stream. -/
def records (f : FlaggedFormat K) (t : Affine K) (data : Array UInt8) :
    Records EdgeFlag (FlaggedVertex K C) :=
  Records.read (EdgeFlag.ofSample <$> f.edgeFlag) (fun flag => FlaggedVertex.mk flag <$> f.vertex t)
    (Bits.Reader.ofBytes data)

/-- The triangles of a stream, mapped to the device. -/
def decode (f : FlaggedFormat K) (t : Affine K) (data : Array UInt8) :
    Reported (List (Triangle K C)) :=
  let rs := records f t data
  assemble rs.tail none rs.complete

end FreeForm

end SmoothShading
