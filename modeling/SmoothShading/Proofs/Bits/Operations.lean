import Mathlib
import SmoothShading.Proofs.Bits.Parser

/-!
# Reading back what a writer did

A writer and a reader that make the same steps are at the same position after each of them, and the
reader gets back the samples, each cut to its width (`Operation.replay_run`). The bytes are those
that the position asks for, and the bits that no step has written are zero.

The steps are taken apart by the bits that each of them adds (`Operation.bits`): the writer appends
them, and the reader takes the samples from them, wherever they stand.
-/

namespace SmoothShading.Bits

/-- A step of a writer. Of a value that is written, as many of the lowest bits count as the width
says. -/
inductive Operation where
  | write (value : ℕ) (width : Width)
  | writeAll (values : List ℕ) (width : Width)
  | align

namespace Operation

/-- The writer makes a step. -/
def perform (w : Writer) : Operation → Writer
  | write value width => w.write value width
  | writeAll values width => w.writeAll values width
  | align => w.align

/-- A new writer makes some steps. -/
def run (ops : List Operation) : Writer := ops.foldl perform Writer.empty

/-- The step of a reader that answers to a step of a writer. It knows the widths alone. -/
def replay : Operation → BitParser (List ℕ)
  | write _ width => do
    let sample ← Reader.read width
    return [sample]
  | writeAll values width => values.mapM fun _ => Reader.read width
  | align => do
    Reader.align
    return []

/-- The values of a step, masked to the width. -/
def samples : Operation → List ℕ
  | write value width => [value &&& width.maxSample]
  | writeAll values width => values.map (· &&& width.maxSample)
  | align => []

/-- The number of bits that a step writes. Bits that it skips are not written. -/
def size : Operation → ℕ
  | write _ width => width.bits
  | writeAll values width => values.length * width.bits
  | align => 0

/-- Whether one of the steps writes the bit at a position. -/
def Written (ops : List Operation) (i : ℕ) : Prop :=
  ∃ before op after, ops = before ++ op :: after ∧
    (run before).position ≤ i ∧ i < (run before).position + op.size

/-! ## The bits of a step -/

/-- The bits that a step adds at a position. -/
def bits (start : ℕ) : Operation → List Bool
  | write value width => expand width.bits value
  | writeAll values width => values.flatMap (expand width.bits)
  | align => padding start

theorem holds_perform {w : Writer} {bs : List Bool} (h : w.Holds bs) (op : Operation) :
    (perform w op).Holds (bs ++ op.bits bs.length) := by
  cases op with
  | write value width => exact h.write value width
  | writeAll values width => exact h.writeAll values width
  | align => exact h.align

theorem reads_replay (start : ℕ) (op : Operation) :
    Reads start op.replay (op.bits start) op.samples := by
  cases op with
  | write value width =>
    rw [samples, width.and_maxSample]
    exact (Reads.read width value).bind_pure fun sample => [sample]
  | writeAll values width =>
    have hread : Reads start (values.mapM fun _ => Reader.read width)
        (values.flatMap (expand width.bits))
        (List.zipWith (fun _ value => value % 2 ^ width.bits) values values) :=
      Reads.mapM values values rfl fun _ _ value _ => Reads.read width value
    rw [List.zipWith_self] at hread
    simp only [samples, width.and_maxSample]
    exact hread
  | align => exact (Reads.align start).bind_pure fun _ => []

/-- What a step adds behind the bits that it writes is zero. -/
theorem getD_bits_of_size_le {op : Operation} {start i : ℕ} (h : op.size ≤ i) :
    (op.bits start)[i]?.getD false = false := by
  cases op with
  | write value width =>
    rw [List.getElem?_eq_none (by rw [bits, length_expand]; exact h)]
    rfl
  | writeAll values width =>
    have hlength : (values.flatMap (expand width.bits)).length = values.length * width.bits := by
      simp [List.length_flatMap]
    rw [List.getElem?_eq_none (by rw [bits, hlength]; exact h)]
    rfl
  | align =>
    rw [bits, padding, List.getElem?_replicate]
    split <;> rfl

/-! ## The bits of a sequence of steps -/

/-- The bits that some steps add, the first one at a position. -/
def allBits (start : ℕ) : List Operation → List Bool
  | [] => []
  | op :: ops => op.bits start ++ allBits (start + (op.bits start).length) ops

theorem allBits_append (start : ℕ) (ops more : List Operation) :
    allBits start (ops ++ more) =
      allBits start ops ++ allBits (start + (allBits start ops).length) more := by
  induction ops generalizing start with
  | nil => rfl
  | cons op ops ih =>
    rw [List.cons_append, allBits, allBits, ih, List.append_assoc, List.length_append,
      Nat.add_assoc]

theorem holds_foldl_perform {w : Writer} {bs : List Bool} (h : w.Holds bs)
    (ops : List Operation) : (ops.foldl perform w).Holds (bs ++ allBits bs.length ops) := by
  induction ops generalizing w bs with
  | nil =>
    rw [allBits, List.append_nil]
    exact h
  | cons op ops ih =>
    have hrest := ih (holds_perform h op)
    rw [List.append_assoc, List.length_append] at hrest
    exact hrest

theorem holds_run (ops : List Operation) : (run ops).Holds (allBits 0 ops) :=
  holds_foldl_perform Writer.Holds.empty ops

theorem reads_mapM_replay (start : ℕ) (ops : List Operation) :
    Reads start (ops.mapM replay) (allBits start ops) (ops.map samples) := by
  induction ops generalizing start with
  | nil => exact Reads.pure []
  | cons op ops ih =>
    rw [List.mapM_cons, List.map_cons, allBits]
    exact (reads_replay start op).bind ((ih _).bind_pure fun rest => op.samples :: rest)

theorem getD_allBits_of_not_written {ops : List Operation} {i : ℕ} (h : ¬ Written ops i) :
    (allBits 0 ops)[i]?.getD false = false := by
  induction ops using List.reverseRecOn with
  | nil => rfl
  | append_singleton ops op ih =>
    have hearlier : ¬ Written ops i := by
      rintro ⟨before, o, after, rfl, hi⟩
      exact h ⟨before, o, after ++ [op], by simp, hi⟩
    have hposition := (holds_run ops).position_eq
    rw [allBits_append, List.getElem?_append]
    split
    · exact ih hearlier
    · next hi =>
      -- The bit is behind the earlier steps, so it is one that the last step skips.
      have hsize : op.size ≤ i - (allBits 0 ops).length := by
        by_contra hlt
        exact h ⟨ops, op, [], rfl, by omega, by omega⟩
      rw [allBits, allBits, List.append_nil]
      exact getD_bits_of_size_le hsize

/-- A reader that repeats the steps of a writer on its bytes is where the writer was after each
step, and gets the values back, each masked to its width. Of the bytes there are as many as hold
all bits, and no bit is set that was not written. -/
theorem replay_run (ops : List Operation) :
    (∀ before, before <+: ops →
      (before.mapM replay).run (Reader.ofBytes (run ops).bytes) =
        some (before.map samples, ⟨(run ops).bytes, (run before).position⟩)) ∧
      (run ops).bytes.size = ((run ops).position + 7) / 8 ∧
      ∀ i, ¬ Written ops i → bitAt (run ops).bytes i = false := by
  have hops := holds_run ops
  refine ⟨?_, ?_, ?_⟩
  · rintro before ⟨after, rfl⟩
    have hocc := hops.occurs
    rw [allBits_append] at hocc
    have hread := reads_mapM_replay 0 before (Reader.ofBytes (run (before ++ after)).bytes) rfl
      (Occurs.append_iff.mp hocc).1
    rw [hread, (holds_run before).position_eq, Reader.ofBytes, Nat.zero_add]
  · rw [hops.size_eq, hops.position_eq]
  · intro i hi
    rw [hops.bitAt_eq]
    exact getD_allBits_of_not_written hi

example : (run [.writeAll [1, 2, 3] .one, .align, .write 0x1ff .eight]).bytes = #[0xa0, 0xff] := by
  decide

end Operation

end SmoothShading.Bits
