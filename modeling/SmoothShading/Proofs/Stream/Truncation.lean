import Mathlib
import SmoothShading.Proofs.Stream.Records
import SmoothShading.Stream.FreeForm
import SmoothShading.Stream.LatticeForm
import SmoothShading.Stream.PatchMesh

/-!
# Streams that are cut short

Cutting a stream anywhere takes records away from its end and does nothing else
(`decode_take`): what is decoded of the first bytes are the first triangles or patches, and the
warnings are the first ones, up to a last one that says that the stream was cut.

The records of the first bytes are the first records (`Records.read_longer`). What the cut leaves
of one more record is its tail, and of a tail only the flag may count: it is the flag of the next
record of the longer stream (`Tail.GoesOn`).
-/

namespace SmoothShading

open Bits

/-! ## Records -/

section Records

variable {η β : Type}

namespace Bits.Reader

variable {r s : Reader} {data : Array UInt8}

theorem remaining_le_longer (h : r.data.toList <+: data.toList) :
    r.remaining ≤ remaining ⟨data, r.position⟩ := by
  have hsize := h.length_le
  rw [Array.length_toList, Array.length_toList] at hsize
  unfold remaining bitCount
  dsimp only
  omega

/-- A reader moves forward in both streams or in neither. -/
theorem remaining_lt_longer_iff (h : r.data.toList <+: data.toList) (hdata : s.data = r.data)
    (hmore : 0 < r.remaining) :
    remaining ⟨data, s.position⟩ < remaining ⟨data, r.position⟩ ↔ s.remaining < r.remaining := by
  have hle := remaining_le_longer h
  unfold remaining bitCount at hmore hle ⊢
  dsimp only at hle ⊢
  rw [hdata]
  omega

end Bits.Reader

/-- What follows a tail when the stream goes on. A head that was read is that of the next record. -/
def Tail.GoesOn (P : η → β → Prop) (tail : Tail η) (rest : Records η β) : Prop :=
  match tail, rest.complete with
  | .cutBody h, [] => rest.tail = .cutBody h
  | .cutBody h, b :: _ => P h b
  | _, _ => True

variable {head : BitParser η} {body : η → BitParser β} {P : η → β → Prop}

/-- In a longer stream the same records are read, and others behind them. -/
theorem Records.read_longer (hhead : Persists head) (hbody : ∀ h, Persists (body h))
    (hP : ∀ h, Yields (body h) (P h)) (r : Reader) {data : Array UInt8}
    (hlonger : r.data.toList <+: data.toList) :
    ∃ rest, Records.read head body ⟨data, r.position⟩ =
        ⟨(Records.read head body r).complete ++ rest.complete, rest.tail⟩ ∧
      (Records.read head body r).tail.GoesOn P rest := by
  have hremaining := Reader.remaining_le_longer hlonger
  fun_induction Records.read head body r with
  | case1 r hend => exact ⟨Records.read head body ⟨data, r.position⟩, rfl, trivial⟩
  | case2 r hmore hrun => exact ⟨Records.read head body ⟨data, r.position⟩, rfl, trivial⟩
  | case3 r hmore h s hrun hnone =>
    -- the longer stream may have the rest of the record, but not another head
    obtain ⟨-, hrun'⟩ := hhead r data h s hlonger hrun
    refine ⟨Records.read head body ⟨data, r.position⟩, rfl, ?_⟩
    rw [Records.read, if_neg (by omega)]
    simp only [hrun']
    cases hbody' : (body h).run ⟨data, s.position⟩ with
    | none => rfl
    | some x =>
      have hb := hP h _ _ _ hbody'
      simp only
      split
      · exact hb
      · exact hb
  | case4 r hmore h s hrun b next hnext hless rest ih =>
    obtain ⟨hs, hrun'⟩ := hhead r data h s hlonger hrun
    rw [← hs] at hlonger
    obtain ⟨hdata, hnext'⟩ := hbody h s data b next hlonger hnext
    rw [← hdata] at hlonger
    obtain ⟨more, hread, htail⟩ := ih hlonger (Reader.remaining_le_longer hlonger)
    rw [hdata, hs] at hlonger
    refine ⟨more, ?_, htail⟩
    rw [Records.read, if_neg (by omega)]
    simp only [hrun', hnext']
    rw [if_pos ((Reader.remaining_lt_longer_iff hlonger (hdata.trans hs) (by omega)).mpr hless),
      hread]
    rfl
  | case5 r hmore h s hrun b next hnext hless =>
    obtain ⟨hs, hrun'⟩ := hhead r data h s hlonger hrun
    rw [← hs] at hlonger
    obtain ⟨hdata, hnext'⟩ := hbody h s data b next hlonger hnext
    rw [hs] at hlonger
    refine ⟨⟨[], .padding⟩, ?_, trivial⟩
    rw [Records.read, if_neg (by omega)]
    simp only [hrun', hnext']
    rw [if_neg fun hlt =>
      hless ((Reader.remaining_lt_longer_iff hlonger (hdata.trans hs) (by omega)).mp hlt)]
    rfl

theorem Records.read_take (hhead : Persists head) (hbody : ∀ h, Persists (body h))
    (hP : ∀ h, Yields (body h) (P h)) (data : Array UInt8) (n : ℕ) :
    let short := Records.read head body (Reader.ofBytes (data.take n))
    ∃ rest, Records.read head body (Reader.ofBytes data) =
        ⟨short.complete ++ rest.complete, rest.tail⟩ ∧ short.tail.GoesOn P rest := by
  refine Records.read_longer hhead hbody hP (Reader.ofBytes (data.take n)) ?_
  simp [Reader.ofBytes, List.take_prefix]

end Records

/-! ## What a cut does to a result -/

/-- The first list is what is left of the second one when the stream is cut: the first values, and
the first warnings. Another warning may follow them, that the stream was cut off, and this warning
stands nowhere else. -/
structure Reported.IsCutOf {α : Type} (short long : Reported (List α)) : Prop where
  value : short.value <+: long.value
  warnings : ∃ ws, (short.warnings = ws ∨ short.warnings = ws ++ [.truncatedStream]) ∧
    .truncatedStream ∉ ws ∧ ws <+: long.warnings

namespace Reported.IsCutOf

variable {α : Type} {short long : Reported (List α)}

theorem cons (h : short.IsCutOf long) (a : α) :
    (short.map (a :: ·)).IsCutOf (long.map (a :: ·)) :=
  ⟨List.cons_prefix_cons.mpr ⟨rfl, h.value⟩, h.warnings⟩

theorem after (h : short.IsCutOf long) {earlier : List Warning}
    (hearlier : .truncatedStream ∉ earlier) :
    (short.after earlier).IsCutOf (long.after earlier) := by
  obtain ⟨ws, hshort, hws, hlonger⟩ := h.warnings
  refine ⟨h.value, earlier ++ ws, ?_, ?_, (List.prefix_append_right_inj earlier).mpr hlonger⟩
  · rcases hshort with hshort | hshort
    · left
      rw [Reported.after, hshort]
    · right
      rw [Reported.after, hshort, List.append_assoc]
  · rw [List.mem_append]
    exact not_or.mpr ⟨hearlier, hws⟩

/-- Whether a record was cut off is told at the end. -/
theorem of_tail {η : Type} (ws : List Warning) (hvalue : short.value <+: long.value)
    (tail : Tail η) (hshort : short.warnings = ws ++ if tail.isCut then [.truncatedStream] else [])
    (hws : .truncatedStream ∉ ws) (hlonger : ws <+: long.warnings) : short.IsCutOf long := by
  refine ⟨hvalue, ws, ?_, hws, hlonger⟩
  cases tail with
  | padding =>
    left
    rw [hshort]
    exact List.append_nil ws
  | cutHead | cutBody head => exact .inr hshort

end Reported.IsCutOf

/-! ## Free-form meshes -/

namespace FreeForm

variable {K C : Type}

theorem not_mem_innerWarnings (flag : EdgeFlag) : .truncatedStream ∉ innerWarnings flag := by
  cases flag <;> simp [innerWarnings]

/-- A stream that ends within a triangle gives the warnings of the flags that were read. -/
theorem isCutOf_innerTail {tail : Tail EdgeFlag} {rest : Records EdgeFlag (FlaggedVertex K C)}
    (h : tail.GoesOn (fun flag r => r.flag = flag) rest) {long : Reported (List (Triangle K C))}
    (ws : List Warning) (hws : .truncatedStream ∉ ws)
    (hnil : rest.complete = [] → long.warnings = ws ++ innerTail rest.tail)
    (hcons : ∀ r more, rest.complete = r :: more → ws ++ innerWarnings r.flag <+: long.warnings)
    (hlonger : ws <+: long.warnings) :
    Reported.IsCutOf ⟨[], ws ++ innerTail tail⟩ long := by
  cases tail with
  | padding | cutHead => exact ⟨List.nil_prefix, ws, .inr rfl, hws, hlonger⟩
  | cutBody flag =>
    refine ⟨List.nil_prefix, ws ++ innerWarnings flag, .inr (List.append_assoc ..).symm, ?_, ?_⟩
    · rw [List.mem_append]
      exact not_or.mpr ⟨hws, not_mem_innerWarnings flag⟩
    · cases hrest : rest.complete with
      | nil =>
        simp only [Tail.GoesOn, hrest] at h
        rw [hnil hrest, h, innerTail, ← List.append_assoc]
        exact List.prefix_append _ _
      | cons r more =>
        simp only [Tail.GoesOn, hrest] at h
        rw [← h]
        exact hcons r more hrest

/-- The triangles of the first records are the first triangles. -/
theorem assemble_isCutOf (tail : Tail EdgeFlag) (last? : Option (Triangle K C))
    (rs : List (FlaggedVertex K C)) {rest : Records EdgeFlag (FlaggedVertex K C)}
    (h : tail.GoesOn (fun flag r => r.flag = flag) rest) :
    (assemble tail last? rs).IsCutOf (assemble rest.tail last? (rs ++ rest.complete)) := by
  fun_induction assemble tail last? rs with
  | case1 last? =>
    refine ⟨List.nil_prefix, [], ?_, List.not_mem_nil, List.nil_prefix⟩
    cases tail with
    | padding => exact .inl rfl
    | cutHead | cutBody flag => exact .inr rfl
  | case2 last? a =>
    refine isCutOf_innerTail h [] List.not_mem_nil ?_ ?_ List.nil_prefix
    · intro hrest
      rw [hrest]
      rfl
    · intro r more hrest
      rw [hrest, List.singleton_append]
      cases more with
      | nil => exact List.prefix_append _ _
      | cons s more =>
        simp only [assemble, Reported.after]
        rw [List.append_assoc, List.nil_append]
        exact List.prefix_append _ _
  | case3 last? a r =>
    refine isCutOf_innerTail h _ (not_mem_innerWarnings r.flag) ?_ ?_ ?_
    · intro hrest
      rw [hrest]
      rfl
    · intro s more hrest
      rw [hrest]
      exact List.prefix_append _ _
    · cases rest.complete with
      | nil => exact List.prefix_append _ _
      | cons s more =>
        simp only [List.cons_append, List.nil_append, assemble, Reported.after]
        rw [List.append_assoc]
        exact List.prefix_append _ _
  | case4 last? a r s rs t flagWarnings ih =>
    refine (ih.cons t).after ?_
    rw [List.mem_append]
    exact not_or.mpr ⟨not_mem_innerWarnings r.flag, not_mem_innerWarnings s.flag⟩
  | case5 v rs last t ih => exact ih.cons t
  | case6 v rs ih => exact ih.after (by decide)
  | case7 v rs last t ih => exact ih.cons t
  | case8 v rs ih => exact ih.after (by decide)
  | case9 last? v rs ih => exact ih.after (by decide)

end FreeForm

/-! ## Lattices -/

namespace Lattice

variable {α : Type}

theorem rows_longer (width count more : ℕ) (xs ys : List α) (h : count * width ≤ xs.length) :
    rows width count xs <+: rows width (count + more) (xs ++ ys) := by
  induction count generalizing xs with
  | zero => exact List.nil_prefix
  | succ count ih =>
    rw [Nat.succ_mul] at h
    rw [Nat.succ_add, rows, rows, List.take_append_of_le_length (by omega),
      List.drop_append_of_le_length (by omega)]
    refine List.cons_prefix_cons.mpr ⟨rfl, ih _ ?_⟩
    rw [List.length_drop]
    omega

theorem completeRows_longer (width : ℕ) (xs ys : List α) :
    completeRows width xs <+: completeRows width (xs ++ ys) := by
  have hcount : xs.length / width ≤ (xs ++ ys).length / width := by
    rw [List.length_append]
    exact Nat.div_le_div_right (Nat.le_add_right _ _)
  obtain ⟨more, hmore⟩ := Nat.exists_eq_add_of_le hcount
  rw [completeRows, completeRows, hmore]
  exact rows_longer width _ more xs ys (Nat.div_mul_le_self _ _)

theorem neighbours_longer (xs ys : List α) : neighbours xs <+: neighbours (xs ++ ys) := by
  induction xs with
  | nil => exact List.nil_prefix
  | cons x xs ih =>
    cases xs with
    | nil => exact List.nil_prefix
    | cons y xs => exact List.cons_prefix_cons.mpr ⟨rfl, ih⟩

end Lattice

namespace LatticeForm

variable {K C : Type}

/-- More vertices leave the rows before them as they are. -/
theorem triangles_longer (verticesPerRow : ℕ) (xs ys : List (Vertex K C)) :
    triangles verticesPerRow xs <+: triangles verticesPerRow (xs ++ ys) := by
  unfold triangles
  split
  · exact List.nil_prefix
  · obtain ⟨more, hrows⟩ := Lattice.completeRows_longer verticesPerRow xs ys
    rw [← hrows]
    exact ((Lattice.neighbours_longer _ more).flatMap _).flatMap _

end LatticeForm

/-! ## Patch meshes -/

namespace PatchMesh

variable {K C : Type} [Scalar K] {kind : PatchKind}

theorem not_mem_warnings_assemble (last? : Option (Patch K C)) (rs : List (PatchRecord K C kind)) :
    .truncatedStream ∉ (assemble last? rs).warnings := by
  fun_induction assemble last? rs with
  | case1 => exact List.not_mem_nil
  | case2 last? points colors rest p ih => exact ih
  | case3 side points colors rest last p ih => exact ih
  | case4 side points colors rest ih => exact List.not_mem_cons_of_ne_of_not_mem (by decide) ih

theorem assemble_longer (last? : Option (Patch K C)) (rs more : List (PatchRecord K C kind)) :
    (assemble last? rs).value <+: (assemble last? (rs ++ more)).value ∧
      (assemble last? rs).warnings <+: (assemble last? (rs ++ more)).warnings := by
  fun_induction assemble last? rs with
  | case1 => exact ⟨List.nil_prefix, List.nil_prefix⟩
  | case2 last? points colors rest p ih => exact ⟨List.cons_prefix_cons.mpr ⟨rfl, ih.1⟩, ih.2⟩
  | case3 side points colors rest last p ih =>
    exact ⟨List.cons_prefix_cons.mpr ⟨rfl, ih.1⟩, ih.2⟩
  | case4 side points colors rest ih => exact ⟨ih.1, List.cons_prefix_cons.mpr ⟨rfl, ih.2⟩⟩

end PatchMesh

/-! ## The parsers of records -/

section Parsers

variable {K C : Type}

theorem FlaggedFormat.persists_edgeFlag (f : FlaggedFormat K) : Persists f.edgeFlag :=
  (Persists.read f.flag).bind fun _ => Persists.pure _

variable [Scalar K]

theorem VertexFormat.persists_number (w : Width) (range : DecodeRange K) :
    Persists (number w range) :=
  (Persists.read w).bind fun _ => Persists.pure _

theorem VertexFormat.persists_point (f : VertexFormat K) (t : Affine K) : Persists (f.point t) :=
  (persists_number f.coordinate f.xRange).bind fun _ =>
    (persists_number f.coordinate f.yRange).bind fun _ => Persists.pure _

variable [Channel C K]

theorem VertexFormat.persists_color (f : VertexFormat K) :
    Persists (f.color : BitParser (Color C)) :=
  Persists.mapM f.colorRanges fun range =>
    (persists_number f.component range).bind fun _ => Persists.pure _

theorem VertexFormat.persists_vertex (f : VertexFormat K) (t : Affine K) :
    Persists (f.vertex t : BitParser (Vertex K C)) :=
  (f.persists_point t).bind fun _ => f.persists_color.bind fun _ =>
    Persists.align.bind fun _ => Persists.pure _

theorem PatchMesh.persists_record (f : FlaggedFormat K) (t : Affine K) (kind : PatchKind)
    (flag : ℕ) : Persists (record f t kind flag : BitParser (PatchRecord K C kind)) := by
  have hpoints (n : ℕ) := (f.persists_point t).times n
  have hcolors (n : ℕ) := (f.persists_color (C := C)).times n
  unfold record
  cases Side.ofFlag? flag with
  | none => exact (hpoints _).bind fun _ => (hcolors 4).bind fun _ => Persists.pure _
  | some side => exact (hpoints _).bind fun _ => (hcolors 2).bind fun _ => Persists.pure _

end Parsers

/-! ## Meshes -/

section Meshes

variable {K C : Type} [Scalar K] [Channel C K]

theorem FreeForm.yields_flag (f : FlaggedFormat K) (t : Affine K) (flag : EdgeFlag) :
    Yields (FlaggedVertex.mk flag <$> f.vertex t : BitParser (FlaggedVertex K C))
      fun r => r.flag = flag := by
  rw [map_eq_pure_bind]
  exact (Yields.trivial _).bind fun _ _ => Yields.pure rfl

theorem FreeForm.decode_isCutOf (f : FlaggedFormat K) (t : Affine K) (data : Array UInt8)
    (n : ℕ) :
    (FreeForm.decode f t (data.take n) : Reported (List (Triangle K C))).IsCutOf
      (FreeForm.decode f t data) := by
  obtain ⟨rest, hread, htail⟩ := Records.read_take (f.persists_edgeFlag.map EdgeFlag.ofSample)
    (fun flag => (f.persists_vertex (C := C) t).map (FlaggedVertex.mk flag)) (yields_flag f t)
    data n
  unfold decode
  rw [show records f t data = _ from hread]
  exact assemble_isCutOf _ none _ htail

theorem LatticeForm.decode_isCutOf (f : VertexFormat K) (t : Affine K) (verticesPerRow : ℕ)
    (data : Array UInt8) (n : ℕ) :
    (LatticeForm.decode f t verticesPerRow (data.take n) : Reported (List (Triangle K C))).IsCutOf
      (LatticeForm.decode f t verticesPerRow data) := by
  obtain ⟨rest, hread, -⟩ := Records.read_take (Persists.pure ())
    (fun _ => f.persists_vertex (C := C) t) (fun _ => Yields.trivial _) data n
  refine Reported.IsCutOf.of_tail [] ?_ _ rfl List.not_mem_nil List.nil_prefix
  unfold decode
  rw [show records f t data = _ from hread]
  exact triangles_longer verticesPerRow _ rest.complete

theorem PatchMesh.decode_isCutOf (f : FlaggedFormat K) (t : Affine K) (kind : PatchKind)
    (data : Array UInt8) (n : ℕ) :
    (PatchMesh.decode f t kind (data.take n) : Reported (List (Patch K C))).IsCutOf
      (PatchMesh.decode f t kind data) := by
  obtain ⟨rest, hread, -⟩ := Records.read_take f.persists_edgeFlag
    (fun flag => persists_record (C := C) f t kind flag) (fun _ => Yields.trivial _) data n
  obtain ⟨hvalue, hwarnings⟩ :=
    assemble_longer none (records (C := C) f t kind (data.take n)).complete rest.complete
  refine Reported.IsCutOf.of_tail _ ?_ _ rfl (not_mem_warnings_assemble none _) ?_
  · unfold decode
    rw [show records f t kind data = _ from hread]
    exact hvalue
  · unfold decode
    rw [show records f t kind data = _ from hread]
    exact hwarnings.trans (List.prefix_append _ _)

/-- Of the first bytes of a stream the first triangles or patches are decoded, and the first
warnings are reported. A warning that the stream was cut off may follow these, and stands nowhere
else; as the first bytes may be all bytes, this is so for every stream. -/
theorem decode_take (t : Affine K) (data : Array UInt8) (n : ℕ) :
    (∀ f : FlaggedFormat K,
      (FreeForm.decode f t (data.take n) : Reported (List (Triangle K C))).IsCutOf
        (FreeForm.decode f t data)) ∧
    (∀ (f : VertexFormat K) (verticesPerRow : ℕ),
      (LatticeForm.decode f t verticesPerRow (data.take n) : Reported (List (Triangle K C))).IsCutOf
        (LatticeForm.decode f t verticesPerRow data)) ∧
    (∀ (f : FlaggedFormat K) (kind : PatchKind),
      (PatchMesh.decode f t kind (data.take n) : Reported (List (Patch K C))).IsCutOf
        (PatchMesh.decode f t kind data)) :=
  ⟨fun f => FreeForm.decode_isCutOf f t data n,
    fun f verticesPerRow => LatticeForm.decode_isCutOf f t verticesPerRow data n,
    fun f kind => PatchMesh.decode_isCutOf f t kind data n⟩

end Meshes

end SmoothShading
