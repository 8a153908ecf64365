import Mathlib
import SmoothShading.Bits.Reader
import SmoothShading.Bits.Writer

/-!
# Sequences of bits

What a `Reader` reads and a `Writer` writes, as lists of bits. `bitAt` gives the bits of an array of
bytes and `expand` those of a sample, both with the most significant bit first.

A sample that is read has the bits in front of the reader as its own (`Reader.testBit_peek`). A
writer holds a list of bits (`Writer.Holds`), and writing a sample appends the expansion of the
sample to that list (`Writer.Holds.write`).
-/

namespace SmoothShading.Bits

/-- The bit at a position of an array of bytes. Behind the last byte every bit is zero. -/
def bitAt (data : Array UInt8) (i : ℕ) : Bool := (data[i / 8]?.getD 0).toNat.testBit (7 - i % 8)

/-- The lowest `n` bits of a number, from the highest one down. -/
def expand (n value : ℕ) : List Bool := (List.range n).map fun i => value.testBit (n - 1 - i)

@[simp] theorem length_expand (n value : ℕ) : (expand n value).length = n := by simp [expand]

theorem getElem_expand {n value i : ℕ} (h : i < (expand n value).length) :
    (expand n value)[i] = value.testBit (n - 1 - i) := by simp [expand]

theorem Width.and_maxSample (width : Width) (value : ℕ) :
    value &&& width.maxSample = value % 2 ^ width.bits := by
  rw [Width.maxSample, mask, min_eq_left width.le, Nat.one_shiftLeft]
  exact Nat.and_two_pow_sub_one_eq_mod value width.bits

/-- The zeros between a position and the next byte. -/
def padding (position : ℕ) : List Bool :=
  List.replicate (8 * ((position + 7) / 8) - position) false

@[simp] theorem length_padding (position : ℕ) :
    (padding position).length = 8 * ((position + 7) / 8) - position := by simp [padding]

/-- Only the place of a position in its byte matters. -/
theorem padding_congr {p q : ℕ} (h : p % 8 = q % 8) : padding p = padding q := by
  unfold padding
  congr 1
  omega

/-! ## Reading -/

/-- A big-endian number has the bits of its bytes, those of the last byte lowest. -/
theorem testBit_foldl_bytes (bytes : List UInt8) (k : ℕ) :
    (bytes.foldl (fun acc (byte : UInt8) => acc * 256 + byte.toNat) 0).testBit k =
      (bytes.reverse[k / 8]?.getD 0).toNat.testBit (k % 8) := by
  induction bytes using List.reverseRecOn generalizing k with
  | nil => simp
  | append_singleton bytes byte ih =>
    have hbyte : byte.toNat < 2 ^ 8 := byte.toNat_lt
    rw [List.foldl_append, List.foldl_cons, List.foldl_nil, mul_comm, List.reverse_append]
    rw [show (256 : ℕ) = 2 ^ 8 from rfl, Nat.testBit_two_pow_mul_add _ hbyte]
    split
    · next hk =>
      rw [Nat.div_eq_of_lt hk, Nat.mod_eq_of_lt hk]
      simp
    · next hk =>
      obtain ⟨k, rfl⟩ := Nat.exists_eq_add_of_le (not_lt.mp hk)
      rw [Nat.add_sub_cancel_left, ← show (256 : ℕ) = 2 ^ 8 from rfl, ih]
      rw [show (8 + k) / 8 = k / 8 + 1 by omega, show (8 + k) % 8 = k % 8 by omega]
      simp

/-- The bits of a sample are the bits in front of the reader. -/
theorem Reader.testBit_peek {r : Reader} {n : ℕ} (h : r.position + n ≤ r.bitCount) (j : ℕ) :
    (r.peek n).testBit j = (decide (j < n) && bitAt r.data (r.position + (n - 1 - j))) := by
  unfold Reader.bitCount at h
  unfold Reader.peek
  simp only [← Array.foldl_toList, Nat.one_shiftLeft]
  rw [Nat.testBit_mod_two_pow, Nat.testBit_shiftRight, testBit_foldl_bytes]
  by_cases hj : j < n
  · -- the byte of the bit, counted from the end of the window and from the start of the data
    have hlast : (8 * ((r.position + n + 7) / 8) - (r.position + n) + j) / 8 =
        (r.position + n + 7) / 8 - 1 - (r.position + (n - 1 - j)) / 8 := by omega
    have hbit : (8 * ((r.position + n + 7) / 8) - (r.position + n) + j) % 8 =
        7 - (r.position + (n - 1 - j)) % 8 := by omega
    have hsize : (r.data.extract (r.position / 8) ((r.position + n + 7) / 8)).toList.length =
        (r.position + n + 7) / 8 - r.position / 8 := by
      simp only [Array.length_toList, Array.size_extract]
      omega
    rw [hlast, hbit, List.getElem?_reverse (by omega), hsize]
    simp only [bitAt, hj, decide_true, Bool.true_and, Array.getElem?_toList, Array.getElem?_extract]
    rw [if_pos (by omega)]
    congr 4
    omega
  · simp [hj]

/-- The bits `bs` stand in `data` from the position `start` on. -/
structure Occurs (data : Array UInt8) (start : ℕ) (bs : List Bool) : Prop where
  le : start + bs.length ≤ 8 * data.size
  bitAt_eq : ∀ i (h : i < bs.length), bitAt data (start + i) = bs[i]

theorem Occurs.append_iff {data : Array UInt8} {start : ℕ} {as bs : List Bool} :
    Occurs data start (as ++ bs) ↔ Occurs data start as ∧ Occurs data (start + as.length) bs := by
  constructor
  · intro h
    have hle := h.le
    rw [List.length_append] at hle
    refine ⟨⟨by omega, fun i hi => ?_⟩, ⟨by omega, fun i hi => ?_⟩⟩
    · rw [h.bitAt_eq i (by simp; omega), List.getElem_append_left hi]
    · rw [add_assoc, h.bitAt_eq (as.length + i) (by simp; omega),
        List.getElem_append_right (by omega)]
      simp
  · rintro ⟨ha, hb⟩
    refine ⟨by have := hb.le; simp; omega, fun i hi => ?_⟩
    by_cases hia : i < as.length
    · rw [ha.bitAt_eq i hia, List.getElem_append_left hia]
    · obtain ⟨j, rfl⟩ := Nat.exists_eq_add_of_le (not_lt.mp hia)
      rw [List.length_append] at hi
      rw [← add_assoc, hb.bitAt_eq j (by omega), List.getElem_append_right (by omega)]
      simp

/-- Longer data have the same bits where the shorter ones end. -/
theorem Occurs.mono {short long : Array UInt8} {start : ℕ} {bs : List Bool}
    (h : Occurs short start bs) (hlonger : short.toList <+: long.toList) :
    Occurs long start bs := by
  have hle := h.le
  have hsize := hlonger.length_le
  rw [Array.length_toList, Array.length_toList] at hsize
  refine ⟨by omega, fun i hi => ?_⟩
  have hbyte : (start + i) / 8 < short.toList.length := by
    rw [Array.length_toList]
    omega
  obtain ⟨more, hmore⟩ := hlonger
  rw [← h.bitAt_eq i hi, bitAt, bitAt, ← Array.getElem?_toList, ← Array.getElem?_toList, ← hmore,
    List.getElem?_append_left hbyte]

theorem Reader.peek_lt (r : Reader) (n : ℕ) : r.peek n < 2 ^ n := by
  rw [peek, Nat.one_shiftLeft]
  exact Nat.mod_lt _ (Nat.two_pow_pos n)

/-- The next sample has the next bits as its expansion. -/
theorem Reader.occurs_peek {r : Reader} {n : ℕ} (h : r.position + n ≤ r.bitCount) :
    Occurs r.data r.position (expand n (r.peek n)) := by
  refine ⟨by rw [length_expand]; exact h, fun i hi => ?_⟩
  rw [length_expand] at hi
  rw [getElem_expand, testBit_peek h, show n - 1 - (n - 1 - i) = i by omega,
    decide_eq_true (by omega), Bool.true_and]

theorem Reader.attempt_of_le {r : Reader} {w : Width} (h : r.position + w.bits ≤ r.bitCount) :
    (Reader.attempt w).run r =
      (some (r.peek w.bits), { r with position := r.position + w.bits }) := by
  simp only [attempt, StateT.run_bind, StateT.run_get, pure_bind]
  rw [if_pos h]
  rfl

theorem Reader.attempt_of_lt {r : Reader} {w : Width} (h : r.bitCount < r.position + w.bits) :
    (Reader.attempt w).run r = (none, r) := by
  simp only [attempt, StateT.run_bind, StateT.run_get, pure_bind]
  rw [if_neg (not_le.mpr h)]
  rfl

theorem Reader.read_of_le {r : Reader} {w : Width} (h : r.position + w.bits ≤ r.bitCount) :
    (Reader.read w).run r =
      some (r.peek w.bits, { r with position := r.position + w.bits }) := by
  unfold Reader.read
  rw [StateT.run, attempt_of_le h]

theorem Reader.read_of_lt {r : Reader} {w : Width} (h : r.bitCount < r.position + w.bits) :
    (Reader.read w).run r = none := by
  unfold Reader.read
  rw [StateT.run, attempt_of_lt h]

/-- Reading takes the sample whose expansion stands in front of the reader. -/
theorem Reader.read_of_occurs {r : Reader} {width : Width} {value : ℕ}
    (h : Occurs r.data r.position (expand width.bits value)) :
    Reader.read width r =
      some (value % 2 ^ width.bits, { r with position := r.position + width.bits }) := by
  have hle : r.position + width.bits ≤ r.bitCount := by simpa [Reader.bitCount] using h.le
  refine (Reader.read_of_le hle).trans ?_
  congr 2
  apply Nat.eq_of_testBit_eq
  intro j
  rw [Reader.testBit_peek hle, Nat.testBit_mod_two_pow]
  by_cases hj : j < width.bits
  · have hbit := h.bitAt_eq (width.bits - 1 - j) (by simp; omega)
    rw [getElem_expand] at hbit
    rw [hbit, show width.bits - 1 - (width.bits - 1 - j) = j by omega]
  · simp [hj]

/-! ## Writing -/

@[simp] theorem bitAt_empty (i : ℕ) : bitAt #[] i = false := by simp [bitAt]

@[simp] theorem bitAt_push_zero (data : Array UInt8) (i : ℕ) :
    bitAt (data.push 0) i = bitAt data i := by
  unfold bitAt
  rw [Array.getElem?_push]
  split
  · next h => simp [h]
  · rfl

theorem testBit_singleBit {k : ℕ} (hk : k < 8) (j : ℕ) :
    (UInt8.ofNat (128 >>> k)).toNat.testBit j = decide (7 - k = j) := by
  have hpow : (UInt8.ofNat (128 >>> k)).toNat = 2 ^ (7 - k) := by
    interval_cases k <;> rfl
  rw [hpow, Nat.testBit_two_pow]

/-- Setting a bit changes no other one. -/
theorem bitAt_setBit {data : Array UInt8} {p : ℕ} (hp : p / 8 < data.size) (i : ℕ) :
    bitAt (data.modify (p / 8) (· ||| UInt8.ofNat (128 >>> (p % 8)))) i =
      (bitAt data i || decide (i = p)) := by
  unfold bitAt
  rw [Array.getElem?_modify]
  split
  · next hslot =>
    rw [← hslot, Array.getElem?_eq_getElem hp]
    simp only [Option.map_some, Option.getD_some, UInt8.toNat_or, Nat.testBit_or,
      testBit_singleBit (Nat.mod_lt p (by decide : 0 < 8))]
    congr 2
    simp only [eq_iff_iff]
    omega
  · next hslot =>
    have hne : i ≠ p := fun h => hslot (by rw [h])
    simp [hne]

/-- A writer holds a list of bits: they are the bits of its bytes, and what fills the last byte is
zero. -/
structure Writer.Holds (w : Writer) (bs : List Bool) : Prop where
  position_eq : w.position = bs.length
  size_eq : w.bytes.size = (bs.length + 7) / 8
  bitAt_eq : ∀ i, bitAt w.bytes i = bs[i]?.getD false

namespace Writer.Holds

theorem empty : Writer.empty.Holds [] := ⟨rfl, rfl, fun i => by simp [Writer.empty]⟩

variable {w : Writer} {bs : List Bool}

/-- The bits that a writer holds can be read from its bytes. -/
theorem occurs (h : w.Holds bs) : Occurs w.bytes 0 bs := by
  refine ⟨by have := h.size_eq; omega, fun i hi => ?_⟩
  rw [zero_add, h.bitAt_eq, List.getElem?_eq_getElem hi]
  rfl

theorem getD_append_singleton (bs : List Bool) (bit : Bool) (i : ℕ) :
    (bs ++ [bit])[i]?.getD false = (bs[i]?.getD false || (decide (i = bs.length) && bit)) := by
  rw [List.getElem?_append]
  split
  · next hi => simp [show i ≠ bs.length by omega]
  · next hi =>
    rw [List.getElem?_eq_none (not_lt.mp hi)]
    rcases Nat.eq_or_lt_of_le (not_lt.mp hi) with rfl | hlt
    · simp
    · simp [show i ≠ bs.length by omega, show i - bs.length ≠ 0 by omega]

/-- The byte of the next bit is there as soon as it is needed. -/
theorem exists_slot (h : w.Holds bs) :
    let bytes := if w.position / 8 = w.bytes.size then w.bytes.push 0 else w.bytes
    w.position / 8 < bytes.size ∧ bytes.size = (bs.length + 1 + 7) / 8 ∧
      ∀ i, bitAt bytes i = bs[i]?.getD false := by
  have hpos := h.position_eq
  have hsize := h.size_eq
  intro bytes
  unfold bytes
  split
  · refine ⟨?_, ?_, fun i => by rw [bitAt_push_zero, h.bitAt_eq]⟩
    · rw [Array.size_push]
      omega
    · rw [Array.size_push]
      omega
  · exact ⟨by omega, by omega, h.bitAt_eq⟩

theorem pushBit (h : w.Holds bs) (bit : Bool) : (w.pushBit bit).Holds (bs ++ [bit]) := by
  obtain ⟨hslot, hsize, hbits⟩ := h.exists_slot
  have hpos := h.position_eq
  dsimp only [Writer.pushBit]
  generalize (if w.position / 8 = w.bytes.size then w.bytes.push 0 else w.bytes) = bytes
    at hslot hsize hbits ⊢
  refine ⟨by simp [hpos], ?_, fun i => ?_⟩
  · cases bit <;> simp [hsize]
  · rw [getD_append_singleton]
    cases bit with
    | false => simp [hbits]
    | true => rw [if_pos rfl, bitAt_setBit hslot, hbits, hpos, Bool.and_true]

/-- Data that are written one after another, each at a multiple of `unit`. -/
theorem foldl {α : Type} {write : Writer → α → Writer} {bits : α → List Bool} {unit : ℕ}
    (as : List α) (hunit : ∀ a ∈ as, unit ∣ (bits a).length)
    (hwrite : ∀ a ∈ as, ∀ (w : Writer) bs, unit ∣ bs.length → w.Holds bs →
      (write w a).Holds (bs ++ bits a))
    (h : w.Holds bs) (hbs : unit ∣ bs.length) :
    (as.foldl write w).Holds (bs ++ as.flatMap bits) := by
  induction as generalizing w bs with
  | nil => simpa using h
  | cons a as ih =>
    have hmem := List.mem_cons_self (a := a) (l := as)
    rw [List.foldl_cons, List.flatMap_cons, ← List.append_assoc]
    refine ih (fun x hx => hunit x (List.mem_cons_of_mem a hx))
      (fun x hx => hwrite x (List.mem_cons_of_mem a hx)) (hwrite a hmem w bs hbs h) ?_
    rw [List.length_append]
    exact Nat.dvd_add hbs (hunit a hmem)

/-- Data that may be written everywhere. -/
theorem foldl_packed {α : Type} {write : Writer → α → Writer} {bits : α → List Bool}
    (as : List α)
    (hwrite : ∀ a (w : Writer) bs, w.Holds bs → (write w a).Holds (bs ++ bits a))
    (h : w.Holds bs) : (as.foldl write w).Holds (bs ++ as.flatMap bits) :=
  h.foldl as (fun a _ => one_dvd (bits a).length) (fun a _ w bs _ => hwrite a w bs) (one_dvd _)

/-- Writing a sample appends its expansion. -/
theorem write (h : w.Holds bs) (value : ℕ) (width : Width) :
    (w.write value width).Holds (bs ++ expand width.bits value) := by
  rw [expand, List.map_eq_flatMap]
  exact h.foldl_packed (List.range width.bits) fun i w bs hw => hw.pushBit _

theorem writeAll (h : w.Holds bs) (values : List ℕ) (width : Width) :
    (w.writeAll values width).Holds (bs ++ values.flatMap (expand width.bits)) :=
  h.foldl_packed values fun value _ _ hw => hw.write value width

/-- Aligning fills the last byte with zeros. -/
theorem align (h : w.Holds bs) : w.align.Holds (bs ++ padding bs.length) := by
  refine ⟨?_, ?_, fun i => ?_⟩
  · simp only [Writer.align, h.position_eq, List.length_append, length_padding]
    omega
  · simp only [Writer.align, h.size_eq, List.length_append, length_padding]
    omega
  · rw [Writer.align, h.bitAt_eq, List.getElem?_append]
    split
    · rfl
    · next hi =>
      rw [List.getElem?_eq_none (not_lt.mp hi), padding, List.getElem?_replicate]
      split <;> rfl

end Writer.Holds

end SmoothShading.Bits
