import SmoothShading.Mesh.Patch
import SmoothShading.Report
import SmoothShading.Stream.Layout
import SmoothShading.Stream.Records

/-!
# Patch meshes

Every record is a flag, points and colors, packed without padding. A record with flag zero states a
patch of its own; any other flag names the side of the patch before that the new one begins with,
and the record states the rest.
-/

namespace SmoothShading

/-- A record of a patch mesh. -/
inductive PatchRecord (K C : Type) (kind : PatchKind) where
  /-- A patch with all its points and colors. -/
  | fresh (points : Vector (Point K) kind.points) (colors : Vector (Color C) 4)
  /-- What a patch adds to a side of the one before it. -/
  | joined (side : Side) (points : Vector (Point K) kind.innerPoints) (colors : Vector (Color C) 2)

namespace PatchMesh

section Assembly

variable {K C : Type} [Scalar K] {kind : PatchKind}

/-- The patches of the records from here on, where `last?` is the patch before them. A record that
joins on to nothing is left out. -/
def assemble (last? : Option (Patch K C)) :
    List (PatchRecord K C kind) → Reported (List (Patch K C))
  | [] => .pure []
  | .fresh points colors :: rest =>
    let p := Patch.ofPoints kind points colors
    (assemble (some p) rest).map (p :: ·)
  | .joined side points colors :: rest =>
    match last? with
    | some last =>
      let p := Patch.ofSide kind (last.sideAt side) points colors
      (assemble (some p) rest).map (p :: ·)
    | none => (assemble none rest).after [.missingPredecessor]

end Assembly

open Bits.BitParser

variable {K C : Type} [Scalar K] [Channel C K]

/-- Reads a record behind its flag. -/
def record (f : FlaggedFormat K) (t : Affine K) (kind : PatchKind) (flag : Nat) :
    Bits.BitParser (PatchRecord K C kind) :=
  match Side.ofFlag? flag with
  | none => do
    let points ← times (f.point t) kind.points
    let colors ← times f.color 4
    return .fresh points colors
  | some side => do
    let points ← times (f.point t) kind.innerPoints
    let colors ← times f.color 2
    return .joined side points colors

/-- The records of a stream. -/
def records (f : FlaggedFormat K) (t : Affine K) (kind : PatchKind) (data : Array UInt8) :
    Records Nat (PatchRecord K C kind) :=
  Records.read f.edgeFlag (record f t kind) (Bits.Reader.ofBytes data)

/-- The patches of a stream, mapped to the device. -/
def decode (f : FlaggedFormat K) (t : Affine K) (kind : PatchKind) (data : Array UInt8) :
    Reported (List (Patch K C)) :=
  let rs := records f t kind data
  let patches := assemble none rs.complete
  ⟨patches.value, patches.warnings ++ if rs.tail.isCut then [.truncatedStream] else []⟩

end PatchMesh

end SmoothShading
