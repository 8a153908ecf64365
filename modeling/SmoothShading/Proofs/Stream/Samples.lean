import Mathlib
import SmoothShading.Proofs.Bits.Parser
import SmoothShading.Stream.Layout

/-!
# Samples of points and colors

The numbers that a stream is written from, and the points, colors and vertices that they stand for
in a format (`VertexFormat.pointOf`, `VertexFormat.colorOf`, `VertexFormat.vertexOf`). Any number
may be written into a field, which keeps its lowest bits (`Bits.Width.kept`).

Each kind of datum has its bits. Writing its samples appends these bits to what the writer holds,
and its parser reads from them what the samples stand for.
-/

namespace SmoothShading

open Bits

/-- What a field of this width keeps of a number: its lowest bits. -/
def Bits.Width.kept (w : Width) (value : ℕ) : ℕ := value % 2 ^ w.bits

/-- The samples of a point. -/
structure PointSamples where
  x : ℕ
  y : ℕ

/-- The samples of a vertex with `n` components. -/
structure VertexSamples (n : ℕ) where
  point : PointSamples
  components : Vector ℕ n

namespace VertexFormat

variable {K C : Type}

/-- The number of components of a color. -/
def components (f : VertexFormat K) : ℕ := f.colorRanges.length

/-! ## Writing -/

section Writing

variable (f : VertexFormat K)

def writePoint (w : Writer) (s : PointSamples) : Writer :=
  (w.write s.x f.coordinate).write s.y f.coordinate

def writeColor (w : Writer) (s : Vector ℕ f.components) : Writer :=
  w.writeAll s.toList f.component

/-- Writes a vertex and fills its last byte. -/
def writeVertex (w : Writer) (s : VertexSamples f.components) : Writer :=
  (f.writeColor (f.writePoint w s.point) s.components).align

def pointBits (s : PointSamples) : List Bool :=
  expand f.coordinate.bits s.x ++ expand f.coordinate.bits s.y

def colorBits (s : Vector ℕ f.components) : List Bool :=
  s.toList.flatMap (expand f.component.bits)

/-- The bits of a vertex that is written at the position `start`. -/
def vertexBits (start : ℕ) (s : VertexSamples f.components) : List Bool :=
  let bs := f.pointBits s.point ++ f.colorBits s.components
  bs ++ padding (start + bs.length)

@[simp] theorem length_pointBits (s : PointSamples) :
    (f.pointBits s).length = 2 * f.coordinate.bits := by
  simp [pointBits, two_mul]

/-- A vertex ends with a byte. -/
theorem dvd_length_vertexBits (start : ℕ) (s : VertexSamples f.components) :
    8 ∣ start + (f.vertexBits start s).length := by
  simp only [vertexBits, List.length_append, length_padding]
  omega

variable {w : Writer} {bs : List Bool}

theorem holds_writePoint (h : w.Holds bs) (s : PointSamples) :
    (f.writePoint w s).Holds (bs ++ f.pointBits s) := by
  rw [pointBits, ← List.append_assoc]
  exact (h.write s.x f.coordinate).write s.y f.coordinate

theorem holds_writeColor (h : w.Holds bs) (s : Vector ℕ f.components) :
    (f.writeColor w s).Holds (bs ++ f.colorBits s) :=
  h.writeAll s.toList f.component

theorem holds_writeVertex (h : w.Holds bs) {start : ℕ} (hstart : bs.length % 8 = start % 8)
    (s : VertexSamples f.components) :
    (f.writeVertex w s).Holds (bs ++ f.vertexBits start s) := by
  have hpoint := f.holds_writePoint h s.point
  have hdata := (f.holds_writeColor hpoint s.components).align
  rw [List.append_assoc bs] at hdata
  unfold vertexBits
  generalize f.pointBits s.point ++ f.colorBits s.components = data at hdata ⊢
  rw [← List.append_assoc, ← padding_congr (p := (bs ++ data).length)]
  · exact hdata
  · rw [List.length_append]
    omega

end Writing

/-! ## Reading -/

section Reading

variable [Scalar K] (f : VertexFormat K)

def pointOf (t : Affine K) (s : PointSamples) : Point K :=
  t.apply ⟨f.xRange.decode (f.coordinate.kept s.x) f.coordinate.maxSample,
    f.yRange.decode (f.coordinate.kept s.y) f.coordinate.maxSample⟩

def colorOf [Channel C K] (s : Vector ℕ f.components) : Color C :=
  List.zipWith (fun range value =>
    Channel.narrow (range.decode (f.component.kept value) f.component.maxSample))
    f.colorRanges s.toList

def vertexOf [Channel C K] (t : Affine K) (s : VertexSamples f.components) : Vertex K C :=
  ⟨f.pointOf t s.point, f.colorOf s.components⟩

variable {f}

theorem reads_number (start : ℕ) (w : Width) (range : DecodeRange K) (value : ℕ) :
    Reads start (number w range) (expand w.bits value) (range.decode (w.kept value) w.maxSample) :=
  (Reads.read w value).bind_pure fun sample => range.decode sample w.maxSample

theorem reads_point (start : ℕ) (t : Affine K) (s : PointSamples) :
    Reads start (f.point t) (f.pointBits s) (f.pointOf t s) :=
  (reads_number start f.coordinate f.xRange s.x).bind
    ((reads_number _ f.coordinate f.yRange s.y).bind_pure fun y => t.apply ⟨_, y⟩)

theorem reads_color [Channel C K] (start : ℕ) (s : Vector ℕ f.components) :
    Reads start (f.color : BitParser (Color C)) (f.colorBits s) (f.colorOf s) :=
  Reads.mapM f.colorRanges s.toList s.length_toList fun range _ value start =>
    (reads_number start f.component range value).bind_pure Channel.narrow

theorem reads_vertex [Channel C K] (start : ℕ) (t : Affine K) (s : VertexSamples f.components) :
    Reads start (f.vertex t : BitParser (Vertex K C)) (f.vertexBits start s) (f.vertexOf t s) := by
  rw [vertexBits, List.append_assoc, List.length_append, ← Nat.add_assoc]
  refine (reads_point start t s.point).bind ((reads_color _ s.components).bind ?_)
  exact (Reads.align _).bind_pure fun _ => f.vertexOf t s

end Reading

end VertexFormat

theorem FlaggedFormat.reads_edgeFlag {K : Type} (f : FlaggedFormat K) (start value : ℕ) :
    Reads start f.edgeFlag (expand f.flag.bits value) (f.flag.kept value % 4) :=
  (Reads.read f.flag value).bind_pure fun sample => sample % 4

end SmoothShading
