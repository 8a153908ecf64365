import Mathlib
import SmoothShading.Proofs.Bits.Sequence

/-!
# Reading as taking bits off a list

The bytes of a reader are one list of bits, the most significant bit of each byte first
(`bitList`). However a reader has got to where it is, by samples that were there, by samples that
were not, and by skips to the next byte, from there on it takes its samples off that list
(`Reader.follows_run`).

A reader needs no more than a word of eight bytes at a time. `Reader.readWord` looks up the bytes of
a sample one by one and cuts the sample out of such a word; it never looks up a byte that is not
there. It does what `Reader.attempt` does, be there a sample or not (`Reader.readWord_eq_attempt`).
-/

namespace SmoothShading.Bits

/-! ## Lists of bits -/

/-- All bits of some bytes. -/
def bitList (data : Array UInt8) : List Bool :=
  data.toList.flatMap fun byte => expand 8 byte.toNat

@[simp] theorem length_bitList (data : Array UInt8) : (bitList data).length = 8 * data.size := by
  simp [bitList, List.length_flatMap, mul_comm]

theorem getElem?_flatMap_expand (bytes : List UInt8) {i : ℕ} (h : i < 8 * bytes.length) :
    (bytes.flatMap fun byte => expand 8 byte.toNat)[i]? =
      some ((bytes[i / 8]?.getD 0).toNat.testBit (7 - i % 8)) := by
  induction bytes generalizing i with
  | nil => exact absurd h (Nat.not_lt_zero i)
  | cons byte bytes ih =>
    rw [List.flatMap_cons, List.getElem?_append, length_expand]
    split
    · next hi =>
      rw [List.getElem?_eq_getElem (by rw [length_expand]; exact hi), getElem_expand,
        Nat.div_eq_of_lt hi, Nat.mod_eq_of_lt hi]
      rfl
    · next hi =>
      obtain ⟨i, rfl⟩ := Nat.exists_eq_add_of_le (not_lt.mp hi)
      rw [List.length_cons] at h
      rw [Nat.add_sub_cancel_left, ih (by omega), show (8 + i) / 8 = i / 8 + 1 by omega,
        show (8 + i) % 8 = i % 8 by omega, List.getElem?_cons_succ]

theorem getElem?_bitList {data : Array UInt8} {i : ℕ} (h : i < 8 * data.size) :
    (bitList data)[i]? = some (bitAt data i) := by
  rw [← Array.length_toList] at h
  rw [bitList, getElem?_flatMap_expand data.toList h, Array.getElem?_toList]
  rfl

/-- Bits that stand in some bytes are a piece of the list of all bits. -/
theorem occurs_iff {data : Array UInt8} {start : ℕ} {bs : List Bool} :
    Occurs data start bs ↔
      start + bs.length ≤ 8 * data.size ∧ bs = ((bitList data).drop start).take bs.length := by
  constructor
  · intro h
    refine ⟨h.le, List.ext_getElem? fun i => ?_⟩
    have hle := h.le
    by_cases hi : i < bs.length
    · rw [List.getElem?_take_of_lt hi, List.getElem?_drop, getElem?_bitList (by omega),
        h.bitAt_eq i hi, List.getElem?_eq_getElem hi]
    · rw [List.getElem?_eq_none (not_lt.mp hi), List.getElem?_take_eq_none (not_lt.mp hi)]
  · rintro ⟨hle, hbs⟩
    refine ⟨hle, fun i hi => ?_⟩
    have hbit : bs[i]? = some (bitAt data (start + i)) := by
      rw [hbs, List.getElem?_take_of_lt hi, List.getElem?_drop, getElem?_bitList (by omega)]
    rw [List.getElem?_eq_getElem hi] at hbit
    exact (Option.some.inj hbit).symm

theorem expand_append (m n a : ℕ) {b : ℕ} (hb : b < 2 ^ n) :
    expand m a ++ expand n b = expand (m + n) (a * 2 ^ n + b) := by
  refine List.ext_getElem (by simp) fun i _ hi => ?_
  rw [length_expand] at hi
  rw [getElem_expand, mul_comm, Nat.testBit_two_pow_mul_add _ hb, List.getElem_append]
  simp only [length_expand, getElem_expand]
  by_cases him : i < m
  · rw [dif_pos him, if_neg (by omega)]
    congr 1
    omega
  · rw [dif_neg him, if_pos (by omega)]
    congr 1
    omega

namespace Reader

/-! ## One sample -/

section Sample

variable {r : Reader} {w : Width}

theorem read_eq_none_iff : (Reader.read w).run r = none ↔ r.remaining < w.bits := by
  have hw := w.pos
  unfold remaining
  by_cases h : r.position + w.bits ≤ r.bitCount
  · rw [read_of_le h]
    exact ⟨nofun, fun hlt => by omega⟩
  · exact ⟨fun _ => by omega, fun _ => read_of_lt (not_le.mp h)⟩

end Sample

/-! ## The word of a sample -/

/-- The bytes that hold the next `n` bits, if none of them is missing. -/
def window? (r : Reader) (n : ℕ) : Option (List UInt8) :=
  (List.range ((r.bitPosition + n - 1) / 8 + 1)).mapM fun i => r.data[r.bytePosition + i]?

/-- The number of a word of eight bytes, of which the last ones are zero if there are fewer. -/
def wordOf (bytes : List UInt8) : ℕ :=
  (bytes ++ List.replicate (8 - bytes.length) 0).foldl
    (fun acc (byte : UInt8) => acc * 256 + byte.toNat) 0

/-- Reads the next sample out of the word of its bytes, if none of them is missing, and then moves
behind it. -/
def readWord (w : Width) : StateM Reader (Option ℕ) := do
  let r ← get
  if r.bitCount < r.position + w.bits then
    return none
  let some bytes := r.window? w.bits | return none
  set { r with position := r.position + w.bits }
  return some ((wordOf bytes >>> (64 - r.bitPosition - w.bits)) &&& w.maxSample)

theorem mapM_getElem? (data : Array UInt8) {first n : ℕ} (h : first + n ≤ data.size) :
    (List.range n).mapM (fun i => data[first + i]?) =
      some ((List.range n).map fun i => data[first + i]?.getD 0) := by
  induction n with
  | zero => rfl
  | succ n ih =>
    rw [List.range_succ, List.mapM_append, ih (by omega), List.map_append]
    simp [Array.getElem?_eq_getElem (show first + n < data.size by omega)]

/-- No byte of a sample that is there is missing. -/
theorem window?_eq {r : Reader} {w : Width} (h : r.position + w.bits ≤ r.bitCount) :
    r.window? w.bits =
      some ((List.range ((r.bitPosition + w.bits - 1) / 8 + 1)).map fun i =>
        r.data[r.bytePosition + i]?.getD 0) := by
  have hw := w.pos
  unfold bitCount at h
  refine mapM_getElem? r.data ?_
  unfold bitPosition bytePosition
  omega

theorem testBit_wordOf {bytes : List UInt8} (h : bytes.length ≤ 8) {k : ℕ} (hk : k < 64) :
    (wordOf bytes).testBit (63 - k) = (bytes[k / 8]?.getD 0).toNat.testBit (7 - k % 8) := by
  have hlength : (bytes ++ List.replicate (8 - bytes.length) 0).length = 8 := by
    rw [List.length_append, List.length_replicate]
    omega
  rw [wordOf, testBit_foldl_bytes, List.getElem?_reverse (by omega), hlength,
    show 8 - 1 - (63 - k) / 8 = k / 8 by omega, show (63 - k) % 8 = 7 - k % 8 by omega,
    List.getElem?_append]
  split
  · rfl
  · next hle =>
    rw [List.getElem?_eq_none (not_lt.mp hle), List.getElem?_replicate]
    split <;> rfl

/-- The word is wide enough for every sample at every place in a byte. -/
theorem wordOf_window {r : Reader} {w : Width} (h : r.position + w.bits ≤ r.bitCount)
    {bytes : List UInt8} (hbytes : r.window? w.bits = some bytes) :
    (wordOf bytes >>> (64 - r.bitPosition - w.bits)) &&& w.maxSample = r.peek w.bits := by
  have hw := w.le
  have hplace : r.bitPosition < 8 := Nat.mod_lt _ (by decide)
  cases Option.some.inj ((window?_eq h).symm.trans hbytes)
  apply Nat.eq_of_testBit_eq
  intro j
  rw [w.and_maxSample, Nat.testBit_mod_two_pow, Nat.testBit_shiftRight, testBit_peek h]
  by_cases hj : j < w.bits
  · have hshift : 64 - r.bitPosition - w.bits + j = 63 - (r.bitPosition + (w.bits - 1 - j)) := by
      omega
    have hinside : (r.bitPosition + (w.bits - 1 - j)) / 8 <
        (r.bitPosition + w.bits - 1) / 8 + 1 := by
      omega
    have hbyte : r.bytePosition + (r.bitPosition + (w.bits - 1 - j)) / 8 =
        (r.position + (w.bits - 1 - j)) / 8 := by
      unfold bytePosition bitPosition
      omega
    have hbit : (r.bitPosition + (w.bits - 1 - j)) % 8 = (r.position + (w.bits - 1 - j)) % 8 := by
      unfold bitPosition
      omega
    rw [hshift, testBit_wordOf (by simp; omega) (by omega), List.getElem?_map,
      List.getElem?_range hinside, Option.map_some, hbyte, hbit]
    rfl
  · rw [decide_eq_false hj, Bool.false_and, Bool.false_and]

theorem readWord_eq_attempt (w : Width) : readWord w = attempt w := by
  refine StateT.ext fun r => ?_
  by_cases h : r.position + w.bits ≤ r.bitCount
  · have hbytes := window?_eq h
    rw [attempt_of_le h, ← wordOf_window h hbytes]
    simp only [readWord, StateT.run_bind, StateT.run_get, pure_bind, hbytes]
    rw [if_neg (not_lt.mpr h)]
    rfl
  · rw [attempt_of_lt (not_le.mp h)]
    simp only [readWord, StateT.run_bind, StateT.run_get, pure_bind]
    rw [if_pos (not_le.mp h)]
    rfl

/-! ## Sequences of steps -/

/-- What a reader may be asked for. -/
inductive Step where
  | read (w : Width)
  | align

/-- The reader that a step leaves. -/
def next (r : Reader) : Step → Reader
  | .read w => ((attempt w).run r).2
  | .align => r.aligned

/-- The reader behind some steps from the first bit on. -/
def run (data : Array UInt8) (steps : List Step) : Reader := steps.foldl next (ofBytes data)

/-- From its position on, a reader takes samples off the list of all bits. -/
structure Follows (data : Array UInt8) (r : Reader) : Prop where
  data_eq : r.data = data
  position_le : r.position ≤ 8 * data.size
  remaining_eq : r.remaining = 8 * data.size - r.position
  /-- A sample is missing exactly if too few bits are left. -/
  read_eq_none_iff : ∀ w : Width, (Reader.read w).run r = none ↔ r.remaining < w.bits
  /-- To ask for a sample that is missing leaves the reader as it is. -/
  attempt_of_missing : ∀ w : Width, r.remaining < w.bits → (attempt w).run r = (none, r)
  /-- Any other sample is the number whose expansion is the next bits, which are then behind the
  reader. -/
  read_eq_some : ∀ w : Width, w.bits ≤ r.remaining → ∃ value < 2 ^ w.bits,
    (attempt w).run r = (some value, r.next (.read w)) ∧
      (Reader.read w).run r = some (value, r.next (.read w)) ∧
      expand w.bits value = ((bitList data).drop r.position).take w.bits ∧
      r.next (.read w) = { r with position := r.position + w.bits }
  /-- The bytes of such a sample are all there, and a word of eight has room for them. -/
  window?_eq_some : ∀ w : Width, w.bits ≤ r.remaining →
    ∃ bytes, r.window? w.bits = some bytes ∧ bytes.length ≤ 5
  readWord_eq : ∀ w : Width, (readWord w).run r = (attempt w).run r
  /-- Aligning moves to the next multiple of eight, and changes nothing else. -/
  next_align : ∃ p, Reader.align.run r = some ((), r.next .align) ∧
    r.next .align = { r with position := p } ∧ IsLeast {p | r.position ≤ p ∧ 8 ∣ p} p
  /-- Two samples one after the other split the bits of both, which may be those of one. -/
  read_read : ∀ v w : Width, v.bits + w.bits ≤ r.remaining → ∃ a b s t,
    (Reader.read v).run r = some (a, s) ∧ (Reader.read w).run s = some (b, t) ∧
      expand v.bits a ++ expand w.bits b =
        ((bitList data).drop r.position).take (v.bits + w.bits) ∧
      ∀ u : Width, u.bits = v.bits + w.bits →
        (Reader.read u).run r = some (a * 2 ^ w.bits + b, t)

/-- Neither reads nor aligns pass the last bit. -/
theorem position_next_le {r : Reader} (h : r.position ≤ r.bitCount) (step : Step) :
    (r.next step).data = r.data ∧ (r.next step).position ≤ r.bitCount := by
  cases step with
  | read w =>
    by_cases hle : r.position + w.bits ≤ r.bitCount
    · rw [next, attempt_of_le hle]
      exact ⟨rfl, hle⟩
    · rw [next, attempt_of_lt (not_le.mp hle)]
      exact ⟨rfl, h⟩
  | align =>
    refine ⟨rfl, ?_⟩
    change 8 * ((r.position + 7) / 8) ≤ r.bitCount
    unfold bitCount at h ⊢
    omega

theorem position_run_le (data : Array UInt8) (steps : List Step) :
    (run data steps).data = data ∧ (run data steps).position ≤ 8 * data.size := by
  induction steps using List.reverseRecOn with
  | nil => exact ⟨rfl, Nat.zero_le _⟩
  | append_singleton steps step ih =>
    obtain ⟨hdata, hle⟩ := ih
    have hcount : (run data steps).bitCount = 8 * data.size := by rw [bitCount, hdata]
    have hnext := position_next_le (hle.trans_eq hcount.symm) step
    rw [hdata, hcount] at hnext
    rw [run, List.foldl_append]
    exact hnext

theorem isLeast_aligned (position : ℕ) :
    IsLeast {p | position ≤ p ∧ 8 ∣ p} (8 * ((position + 7) / 8)) := by
  refine ⟨⟨by omega, Nat.dvd_mul_right 8 _⟩, ?_⟩
  rintro p ⟨hle, q, rfl⟩
  omega

theorem length_window?_le {r : Reader} {w : Width} (h : r.position + w.bits ≤ r.bitCount) :
    ∃ bytes, r.window? w.bits = some bytes ∧ bytes.length ≤ 5 := by
  have hw := w.le
  have hplace : r.bitPosition < 8 := Nat.mod_lt _ (by decide)
  refine ⟨_, window?_eq h, ?_⟩
  rw [List.length_map, List.length_range]
  omega

/-- Samples that stand one behind the other are read one after the other, or as one. -/
theorem read_read_of_le {r : Reader} {v w : Width}
    (h : r.position + v.bits + w.bits ≤ r.bitCount) :
    ∃ a b s t, (Reader.read v).run r = some (a, s) ∧ (Reader.read w).run s = some (b, t) ∧
      Occurs r.data r.position (expand v.bits a ++ expand w.bits b) ∧
      ∀ u : Width, u.bits = v.bits + w.bits →
        (Reader.read u).run r = some (a * 2 ^ w.bits + b, t) := by
  have hv : r.position + v.bits ≤ r.bitCount := by omega
  let s : Reader := { r with position := r.position + v.bits }
  have hw : s.position + w.bits ≤ s.bitCount := h
  have hocc : Occurs r.data r.position
      (expand v.bits (r.peek v.bits) ++ expand w.bits (s.peek w.bits)) := by
    rw [Occurs.append_iff, length_expand]
    exact ⟨occurs_peek hv, occurs_peek hw⟩
  refine ⟨_, _, s, _, read_of_le hv, read_of_le hw, hocc, fun u hu => ?_⟩
  have hlt := s.peek_lt w.bits
  rw [expand_append _ _ _ hlt, ← hu] at hocc
  have hread := read_of_occurs hocc
  have hsmall : r.peek v.bits * 2 ^ w.bits + s.peek w.bits < 2 ^ u.bits := by
    rw [hu, pow_add]
    have := r.peek_lt v.bits
    nlinarith
  rw [Nat.mod_eq_of_lt hsmall] at hread
  rw [show (Reader.read u).run r = _ from hread, hu, Nat.add_assoc]

/-- Wherever steps have led a reader to, it follows the list of bits. -/
theorem follows_run (data : Array UInt8) (steps : List Step) : Follows data (run data steps) := by
  obtain ⟨hdata, hle⟩ := position_run_le data steps
  generalize run data steps = r at hdata hle
  subst hdata
  have hremaining : r.remaining = 8 * r.data.size - r.position := rfl
  have hfits {n : ℕ} (h : n ≤ r.remaining) (hn : 0 < n) : r.position + n ≤ r.bitCount := by
    unfold bitCount
    omega
  refine ⟨rfl, hle, hremaining, fun w => read_eq_none_iff, ?_, ?_, ?_, ?_, ?_, ?_⟩
  · intro w h
    refine attempt_of_lt ?_
    unfold bitCount
    omega
  · intro w h
    have hattempt := attempt_of_le (hfits h w.pos)
    obtain ⟨-, hbits⟩ := occurs_iff.mp (occurs_peek (hfits h w.pos))
    rw [length_expand] at hbits
    refine ⟨_, r.peek_lt w.bits, ?_, ?_, hbits, ?_⟩
    · rw [next, hattempt]
    · rw [next, hattempt]
      exact read_of_le (hfits h w.pos)
    · rw [next, hattempt]
  · exact fun w h => length_window?_le (hfits h w.pos)
  · exact fun w => by rw [readWord_eq_attempt]
  · exact ⟨_, rfl, rfl, isLeast_aligned r.position⟩
  · intro v w h
    have hboth := hfits h (Nat.add_pos_left v.pos w.bits)
    rw [← Nat.add_assoc] at hboth
    obtain ⟨a, b, s, t, hv, hw, hocc, hwhole⟩ := read_read_of_le hboth
    obtain ⟨-, hbits⟩ := occurs_iff.mp hocc
    rw [List.length_append, length_expand, length_expand] at hbits
    exact ⟨a, b, s, t, hv, hw, hbits, hwhole⟩

end Reader

end SmoothShading.Bits
