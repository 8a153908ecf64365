import Mathlib
import SmoothShading.Proofs.Bits.Parser
import SmoothShading.Proofs.Exact
import SmoothShading.Proofs.Stream.Records
import SmoothShading.Stream.FreeForm
import SmoothShading.Stream.LatticeForm
import SmoothShading.Stream.PatchMesh

/-!
# How long reading goes on

Reading ends on every stream, and the stream bounds what there is to be drawn
(`reading_ends`): there are no more triangles, vertices or patches than the stream has room for,
were each of them stated by a record of the smallest size.

`Records.read` stops at a record that takes no bits, so that it ends with any parsers. It is
compared with a loop that does not stop there (`Records.Loop`). For the formats of meshes a turn of
this loop leads to a later position within the stream (`Records.Consumes`), so that the loop ends,
and with the same records (`Records.Consumes.loop_iff`).
-/

namespace SmoothShading

open Bits

/-! ## The loop -/

namespace Records

section Loop

variable {η β : Type} (head : BitParser η) (body : η → BitParser β)

/-- One turn of reading: eight bits are left, and a record is read from them. -/
def Step (r : Reader) (b : β) (next : Reader) : Prop :=
  8 ≤ r.remaining ∧ ∃ h s, head.run r = some (h, s) ∧ (body h).run s = some (b, next)

/-- Reading that takes turns as long as it can, and ends with these records. -/
inductive Loop : Reader → Records η β → Prop where
  | padding {r : Reader} (hend : r.remaining < 8) : Loop r ⟨[], .padding⟩
  | cutHead {r : Reader} (hmore : 8 ≤ r.remaining) (hhead : head.run r = none) :
      Loop r ⟨[], .cutHead⟩
  | cutBody {r s : Reader} {h : η} (hmore : 8 ≤ r.remaining) (hhead : head.run r = some (h, s))
      (hbody : (body h).run s = none) : Loop r ⟨[], .cutBody h⟩
  | next {r next : Reader} {b : β} {rest : Records η β} (hstep : Step head body r b next)
      (hrest : Loop next rest) : Loop r ⟨b :: rest.complete, rest.tail⟩

/-- The readers that reading passes through. -/
def Reaches : Reader → Reader → Prop :=
  Relation.ReflTransGen fun r next => ∃ b, Step head body r b next

/-- Reading of the stream ends, with these records. Every turn on the way takes `size` bits or more
from the stream, and no more than it has. -/
structure EndsWith (size : ℕ) (data : Array UInt8) (rs : Records η β) : Prop where
  loop_iff : ∀ rs', Loop head body (Reader.ofBytes data) rs' ↔ rs' = rs
  takes : ∀ r b next, Reaches head body (Reader.ofBytes data) r → Step head body r b next →
    r.position + size ≤ next.position ∧ next.position ≤ 8 * data.size

end Loop

end Records

/-- The reader is at a multiple of `unit` bits in the stream or at its end. -/
structure Bits.Reader.IsWithin (data : Array UInt8) (unit : ℕ) (r : Reader) : Prop where
  data_eq : r.data = data
  dvd : unit ∣ r.position
  le : r.position ≤ 8 * data.size

theorem Bits.Reader.isWithin_ofBytes (data : Array UInt8) (unit : ℕ) :
    (Reader.ofBytes data).IsWithin data unit := ⟨rfl, Nat.dvd_zero unit, Nat.zero_le _⟩

namespace Records

variable {η β : Type} {head : BitParser η} {body : η → BitParser β} {unit size : ℕ}
  {data : Array UInt8} {r : Reader} {rs : Records η β}

/-- A turn leads from within a stream to a place within it that is `size` bits or more behind. -/
def Consumes (head : BitParser η) (body : η → BitParser β) (unit size : ℕ) : Prop :=
  ∀ data r b next, r.IsWithin data unit → Step head body r b next →
    next.IsWithin data unit ∧ r.position + size ≤ next.position

/-- How far the parsers come tells how far a turn does. -/
theorem Consumes.of_advances {stop : ℕ → ℕ} {stop' : η → ℕ → ℕ} (hhead : Advances head stop)
    (hbody : ∀ h, Advances (body h) (stop' h))
    (hstop : ∀ h position, unit ∣ position →
      unit ∣ stop' h (stop position) ∧ position + size ≤ stop' h (stop position)) :
    Consumes head body unit size := by
  rintro _ r b next ⟨rfl, hdvd, hle⟩ ⟨-, h, s, hrunHead, hrunBody⟩
  obtain ⟨rfl, hs⟩ := hhead r h s hle hrunHead
  obtain ⟨rfl, hnext⟩ := hbody h _ b next hs hrunBody
  obtain ⟨hdvd', hsize⟩ := hstop h r.position hdvd
  exact ⟨⟨rfl, hdvd', hnext⟩, hsize⟩

namespace Consumes

variable (h : Consumes head body unit size)
include h

/-- All of a run stays within the stream. -/
theorem isWithin_of_reaches (hr : r.IsWithin data unit) {s : Reader}
    (hreaches : Reaches head body r s) : s.IsWithin data unit := by
  induction hreaches with
  | refl => exact hr
  | tail _ hstep ih =>
    obtain ⟨b, hstep⟩ := hstep
    exact (h data _ b _ ih hstep).1

theorem remaining_le {b : β} {next : Reader} (hr : r.IsWithin data unit)
    (hstep : Step head body r b next) : next.remaining + size ≤ r.remaining := by
  obtain ⟨hnext, hsize⟩ := h data r b next hr hstep
  have hle := hnext.le
  unfold Reader.remaining Reader.bitCount
  rw [hr.data_eq, hnext.data_eq]
  omega

/-- As every turn takes some bits, the loop ends, and `Records.read` stops where the loop does. -/
theorem loop_iff (hsize : 0 < size) (hr : r.IsWithin data unit) :
    Loop head body r rs ↔ rs = Records.read head body r := by
  constructor
  · intro hloop
    induction hloop with
    | padding hend => exact (read_padding hend).symm
    | cutHead hmore hhead =>
      rw [Records.read, if_neg (not_lt.mpr hmore)]
      simp only [hhead]
    | cutBody hmore hhead hbody =>
      rw [Records.read, if_neg (not_lt.mpr hmore)]
      simp only [hhead, hbody]
    | @next r next b rest hstep hrest ih =>
      have hless := h.remaining_le hr hstep
      have hrest := ih (h data r b next hr hstep).1
      obtain ⟨hmore, e, s, hhead, hbody⟩ := hstep
      rw [Records.read, if_neg (not_lt.mpr hmore)]
      simp only [hhead, hbody]
      rw [if_pos (by omega), ← hrest]
  · rintro rfl
    fun_induction Records.read head body r with
    | case1 r hend => exact .padding hend
    | case2 r hmore hhead => exact .cutHead (not_lt.mp hmore) hhead
    | case3 r hmore e s hhead hbody => exact .cutBody (not_lt.mp hmore) hhead hbody
    | case4 r hmore e s hhead b next hbody hless rest ih =>
      have hstep : Step head body r b next := ⟨not_lt.mp hmore, e, s, hhead, hbody⟩
      exact .next hstep (ih (h data r b next hr hstep).1)
    | case5 r hmore e s hhead b next hbody hless =>
      have hstep := h.remaining_le hr ⟨not_lt.mp hmore, e, s, hhead, hbody⟩
      omega

theorem endsWith (hsize : 0 < size) (data : Array UInt8) :
    EndsWith head body size data (Records.read head body (Reader.ofBytes data)) := by
  have hr := Reader.isWithin_ofBytes data unit
  refine ⟨fun rs => h.loop_iff hsize hr, fun r b next hreaches hstep => ?_⟩
  obtain ⟨hnext, hle⟩ := h data r b next (h.isWithin_of_reaches hr hreaches) hstep
  exact ⟨hle, hnext.le⟩

/-- The records have room in what is left of the stream. -/
theorem length_mul_le (hr : r.IsWithin data unit) :
    (Records.read head body r).complete.length * size ≤ r.remaining := by
  fun_induction Records.read head body r with
  | case1 | case2 | case3 =>
    rw [List.length_nil, Nat.zero_mul]
    exact Nat.zero_le _
  | case4 r hmore e s hhead b next hbody hless rest ih =>
    have hstep : Step head body r b next := ⟨not_lt.mp hmore, e, s, hhead, hbody⟩
    have hfirst := h.remaining_le hr hstep
    have hrest : rest.complete.length * size ≤ next.remaining := ih (h data r b next hr hstep).1
    rw [List.length_cons, Nat.succ_mul]
    omega
  | case5 r hmore e s hhead b next hbody hless =>
    have hfirst := h.remaining_le hr ⟨not_lt.mp hmore, e, s, hhead, hbody⟩
    rw [List.length_singleton, Nat.one_mul]
    omega

theorem length_le (hsize : 0 < size) (data : Array UInt8) :
    (Records.read head body (Reader.ofBytes data)).complete.length ≤ 8 * data.size / size :=
  (Nat.le_div_iff_mul_le hsize).mpr (h.length_mul_le (Reader.isWithin_ofBytes data unit))

end Consumes

theorem Consumes.length_le_of_bytes {bytes : ℕ} (h : Consumes head body unit (8 * bytes))
    (hbytes : 0 < bytes) (data : Array UInt8) :
    (Records.read head body (Reader.ofBytes data)).complete.length ≤ data.size / bytes := by
  rw [← Nat.mul_div_mul_left data.size bytes (by decide : 0 < 8)]
  exact h.length_le (Nat.mul_pos (by decide) hbytes) data

end Records

/-! ## Sizes -/

namespace VertexFormat

variable {K : Type} (f : VertexFormat K)

/-- The bits of a point. -/
def pointSize : ℕ := 2 * f.coordinate.bits

/-- The bits of a color. -/
def colorSize : ℕ := f.colorRanges.length * f.component.bits

theorem pointSize_pos : 0 < f.pointSize := Nat.mul_pos two_pos f.coordinate.pos

variable [Scalar K]

theorem advances_number (w : Width) (range : DecodeRange K) :
    Advances (number w range) (· + w.bits) :=
  (Advances.read w).bind fun _ => Advances.pure _

theorem advances_point (t : Affine K) : Advances (f.point t) (· + f.pointSize) := by
  unfold pointSize
  simp only [Nat.two_mul, ← Nat.add_assoc]
  exact (advances_number f.coordinate f.xRange).bind fun _ =>
    (advances_number f.coordinate f.yRange).bind fun _ => Advances.pure _

variable {C : Type} [Channel C K]

theorem advances_color : Advances (f.color : BitParser (Color C)) (· + f.colorSize) :=
  Advances.mapM f.colorRanges fun range =>
    (advances_number f.component range).bind fun _ => Advances.pure _

/-- A vertex ends with a byte. -/
theorem advances_vertex (t : Affine K) :
    Advances (f.vertex t : BitParser (Vertex K C)) fun position =>
      8 * ((position + f.pointSize + f.colorSize + 7) / 8) :=
  (f.advances_point t).bind fun _ => f.advances_color.bind fun _ =>
    Advances.align.bind fun _ => Advances.pure _

end VertexFormat

theorem FlaggedFormat.advances_edgeFlag {K : Type} (f : FlaggedFormat K) :
    Advances f.edgeFlag (· + f.flag.bits) :=
  (Advances.read f.flag).bind fun _ => Advances.pure _

namespace PatchMesh

variable {K : Type} (f : VertexFormat K) (kind : PatchKind)

/-- The bits behind the flag of a record that begins with a side, or that states all of a patch. -/
def bodySize : Option Side → ℕ
  | none => kind.points * f.pointSize + 4 * f.colorSize
  | some _ => kind.innerPoints * f.pointSize + 2 * f.colorSize

theorem le_bodySize (side? : Option Side) :
    kind.innerPoints * f.pointSize + 2 * f.colorSize ≤ bodySize f kind side? := by
  cases side? with
  | some side => exact le_refl _
  | none =>
    have hpoints : kind.innerPoints ≤ kind.points := Nat.le_add_left _ 4
    exact Nat.add_le_add (Nat.mul_le_mul_right _ hpoints) (Nat.mul_le_mul_right _ (by decide))

end PatchMesh

/-! ## Turns -/

section Turns

variable {K C : Type} [Scalar K] [Channel C K]

theorem FreeForm.consumes (f : FlaggedFormat K) (t : Affine K) :
    Records.Consumes (EdgeFlag.ofSample <$> f.edgeFlag)
      (fun flag => (FlaggedVertex.mk flag <$> f.vertex t : BitParser (FlaggedVertex K C))) 8
      (8 * ((f.flag.bits + f.pointSize + f.colorSize + 7) / 8)) := by
  refine .of_advances (f.advances_edgeFlag.map _) (fun flag => (f.advances_vertex t).map _) ?_
  intro _ position hposition
  omega

theorem LatticeForm.consumes (f : VertexFormat K) (t : Affine K) :
    Records.Consumes (return ()) (fun _ => (f.vertex t : BitParser (Vertex K C))) 8
      (8 * ((f.pointSize + f.colorSize + 7) / 8)) := by
  refine .of_advances (Advances.pure ()) (fun _ => f.advances_vertex t) ?_
  intro _ position hposition
  rw [id_eq]
  omega

namespace PatchMesh

theorem advances_record (f : FlaggedFormat K) (t : Affine K) (kind : PatchKind) (flag : ℕ) :
    Advances (record f t kind flag : BitParser (PatchRecord K C kind))
      (· + bodySize f.toVertexFormat kind (Side.ofFlag? flag)) := by
  have hpoints (n : ℕ) := (f.advances_point t).times n
  have hcolors (n : ℕ) := (f.advances_color (C := C)).times n
  unfold record bodySize
  cases Side.ofFlag? flag with
  | none =>
    simp only [← Nat.add_assoc]
    exact (hpoints _).bind fun _ => (hcolors 4).bind fun _ => Advances.pure _
  | some side =>
    simp only [← Nat.add_assoc]
    exact (hpoints _).bind fun _ => (hcolors 2).bind fun _ => Advances.pure _

theorem consumes (f : FlaggedFormat K) (t : Affine K) (kind : PatchKind) :
    Records.Consumes f.edgeFlag
      (record f t kind : ℕ → BitParser (PatchRecord K C kind)) 1
      (f.flag.bits + kind.innerPoints * f.pointSize + 2 * f.colorSize) := by
  refine .of_advances f.advances_edgeFlag (fun flag => advances_record f t kind flag) ?_
  intro flag position _
  have hbody := le_bodySize f.toVertexFormat kind (Side.ofFlag? flag)
  exact ⟨one_dvd _, by omega⟩

end PatchMesh

end Turns

/-! ## Meshes -/

theorem FreeForm.length_assemble_le {K C : Type} (tail : Tail EdgeFlag)
    (last? : Option (Triangle K C)) (rs : List (FlaggedVertex K C)) :
    (assemble tail last? rs).value.length ≤ rs.length := by
  fun_induction assemble tail last? rs with
  | case1 | case2 | case3 => exact Nat.zero_le _
  | case4 last? a r s rest t flagWarnings ih =>
    exact Nat.succ_le_succ (ih.trans (Nat.le_add_right _ 2))
  | case5 v rest last t ih | case7 v rest last t ih => exact Nat.succ_le_succ ih
  | case6 v rest ih | case8 v rest ih | case9 last? v rest ih => exact Nat.le_succ_of_le ih

theorem PatchMesh.length_assemble_le {K C : Type} [Scalar K] {kind : PatchKind}
    (last? : Option (Patch K C)) (rs : List (PatchRecord K C kind)) :
    (assemble last? rs).value.length ≤ rs.length := by
  fun_induction assemble last? rs with
  | case1 => exact Nat.zero_le _
  | case2 last? points colors rest p ih | case3 side points colors rest last p ih =>
    exact Nat.succ_le_succ ih
  | case4 side points colors rest ih => exact Nat.le_succ_of_le ih

section Meshes

variable {K C : Type} [Scalar K] [Channel C K]

/-- Reading ends on every stream, and each turn takes a record of the smallest size or more. As the
vertices of triangles fill their last bytes, there are at most as many triangles or vertices as the
stream has room for such bytes. Patches are packed, and the smallest record is one that joins on to
a side. -/
theorem reading_ends (t : Affine K) (data : Array UInt8) :
    (∀ f : FlaggedFormat K,
      let bytes := (f.flag.bits + f.pointSize + f.colorSize + 7) / 8
      Records.EndsWith (EdgeFlag.ofSample <$> f.edgeFlag)
          (fun flag => FlaggedVertex.mk flag <$> f.vertex t) (8 * bytes) data
          (FreeForm.records f t data : Records EdgeFlag (FlaggedVertex K C)) ∧
        (FreeForm.decode f t data : Reported (List (Triangle K C))).value.length ≤
          data.size / bytes) ∧
    (∀ f : VertexFormat K,
      let bytes := (f.pointSize + f.colorSize + 7) / 8
      let records : Records Unit (Vertex K C) := LatticeForm.records f t data
      Records.EndsWith (return ()) (fun _ => f.vertex t) (8 * bytes) data records ∧
        records.complete.length ≤ data.size / bytes) ∧
    ∀ (f : FlaggedFormat K) (kind : PatchKind),
      let bits := f.flag.bits + kind.innerPoints * f.pointSize + 2 * f.colorSize
      Records.EndsWith f.edgeFlag (PatchMesh.record f t kind) bits data
          (PatchMesh.records f t kind data : Records ℕ (PatchRecord K C kind)) ∧
        (PatchMesh.decode f t kind data : Reported (List (Patch K C))).value.length ≤
          8 * data.size / bits := by
  refine ⟨fun f => ?_, fun f => ?_, fun f kind => ?_⟩
  · intro bytes
    have hbytes : 0 < bytes := by
      have := f.pointSize_pos
      omega
    have hconsumes := FreeForm.consumes (C := C) f t
    refine ⟨hconsumes.endsWith (by omega) data, ?_⟩
    exact (FreeForm.length_assemble_le _ none _).trans (hconsumes.length_le_of_bytes hbytes data)
  · intro bytes records
    have hbytes : 0 < bytes := by
      have := f.pointSize_pos
      omega
    have hconsumes := LatticeForm.consumes (C := C) f t
    exact ⟨hconsumes.endsWith (by omega) data, hconsumes.length_le_of_bytes hbytes data⟩
  · intro bits
    have hbits : 0 < bits := by
      have := f.flag.pos
      omega
    have hconsumes := PatchMesh.consumes (C := C) f t kind
    refine ⟨hconsumes.endsWith hbits data, ?_⟩
    exact (PatchMesh.length_assemble_le none _).trans (hconsumes.length_le hbits data)

end Meshes

/-- A stream with as many lattice vertices, and as many Coons patches, as there can be. -/
theorem reading_ends_full :
    let f : FlaggedFormat ℚ := ⟨⟨.eight, .eight, ⟨4, 0⟩, ⟨0, 2⟩, [⟨1, 0⟩]⟩, .eight⟩
    let data : Array UInt8 := #[0] ++ Array.replicate 47 129
    let freeForm : List (Triangle ℚ ℚ) := (FreeForm.decode f .identity data).value
    let vertices : Records Unit (Vertex ℚ ℚ) :=
      LatticeForm.records f.toVertexFormat .identity data
    let patches : Records ℕ (PatchRecord ℚ ℚ .coons) :=
      PatchMesh.records f .identity .coons data
    (freeForm.length = 10 ∧ freeForm.length ≤ 48 / 4) ∧
      (Records.EndsWith (return ()) (fun _ => f.vertex .identity) 24 data vertices ∧
        vertices.complete.length = 48 / 3) ∧
      Records.EndsWith f.edgeFlag (PatchMesh.record f .identity .coons) 152 data patches ∧
        patches.complete.length = 8 * 48 / 152 := by
  intro f data freeForm vertices patches
  obtain ⟨hfreeForm, hlattice, hpatches⟩ := reading_ends (K := ℚ) (C := ℚ) .identity data
  have hsize : data.size = 48 := by decide +kernel
  have hflagged : (f.flag.bits + f.pointSize + f.colorSize + 7) / 8 = 4 := by decide +kernel
  have hplain : 8 * ((f.pointSize + f.colorSize + 7) / 8) = 24 := by decide +kernel
  refine ⟨⟨by decide +kernel, ?_⟩, ⟨?_, by decide +kernel⟩, ?_, by decide +kernel⟩
  · rw [← hsize, ← hflagged]
    exact (hfreeForm f).2
  · rw [← hplain]
    exact (hlattice f.toVertexFormat).1
  · exact (hpatches f .coons).1

end SmoothShading
