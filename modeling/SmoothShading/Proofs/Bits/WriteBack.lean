import Mathlib
import SmoothShading.Proofs.Bits.Operations
import SmoothShading.Proofs.Bits.Reading

/-!
# Writing back what was read

Widths that add up to the bits of some bytes cut these bytes into samples. Written with the same
widths, the samples give the bytes back (`writeEach_readEach`), so different bytes of the same
number are never cut into the same samples.

The samples stand for a list of bits, the expansion of one behind that of the other. A reader takes
them where that list stands in its bytes, and a writer holds that list; so the bytes of both have
the same bits, and bytes are told apart by their bits (`eq_of_bitAt_eq`).
-/

namespace SmoothShading.Bits

/-- The number of bits that samples of these widths take together. -/
def totalBits (widths : List Width) : ℕ := (widths.map Width.bits).sum

/-- Reads one sample of each width. -/
def readEach (widths : List Width) : BitParser (List ℕ) := widths.mapM Reader.read

/-- A new writer writes samples, each with its width. -/
def writeEach (widths : List Width) (samples : List ℕ) : Writer :=
  Operation.run (List.zipWith Operation.write samples widths)

/-- The bits that samples stand for, each with its width. -/
def sampleBits (widths : List Width) (samples : List ℕ) : List Bool :=
  (List.zipWith (fun width sample => expand width.bits sample) widths samples).flatten

theorem length_sampleBits {widths : List Width} {samples : List ℕ}
    (h : samples.length = widths.length) :
    (sampleBits widths samples).length = totalBits widths := by
  induction widths generalizing samples with
  | nil => rfl
  | cons width widths ih =>
    cases samples with
    | nil => cases h
    | cons sample samples =>
      have hrest := ih (Nat.succ.inj h)
      unfold sampleBits totalBits at hrest ⊢
      rw [List.zipWith_cons_cons, List.flatten_cons, List.length_append, length_expand, hrest,
        List.map_cons, List.sum_cons]

/-- Bytes are told apart by their bits. -/
theorem eq_of_bitAt_eq {data other : Array UInt8} (hsize : data.size = other.size)
    (hbits : ∀ i < 8 * data.size, bitAt data i = bitAt other i) : data = other := by
  refine Array.ext hsize fun i hi hi' => UInt8.toNat_inj.mp (Nat.eq_of_testBit_eq fun k => ?_)
  by_cases hk : k < 8
  · have hbit := hbits (8 * i + (7 - k)) (by omega)
    have hplace : 7 - (8 * i + (7 - k)) % 8 = k := by omega
    have hslot : (8 * i + (7 - k)) / 8 = i := by omega
    simp only [bitAt, hslot, hplace, Array.getElem?_eq_getElem hi, Array.getElem?_eq_getElem hi',
      Option.getD_some] at hbit
    exact hbit
  · have hsmall (byte : UInt8) : byte.toNat.testBit k = false :=
      Nat.testBit_lt_two_pow (byte.toNat_lt.trans_le (Nat.pow_le_pow_right (by decide) (by omega)))
    rw [hsmall, hsmall]

/-- As long as there are enough bits, one sample of each width is read, and the samples stand for
the bits in front of the reader. -/
theorem exists_readEach {widths : List Width} {r : Reader}
    (h : r.position + totalBits widths ≤ r.bitCount) :
    ∃ samples, (readEach widths).run r =
        some (samples, { r with position := r.position + totalBits widths }) ∧
      List.Forall₂ (fun sample width => sample < 2 ^ width.bits) samples widths ∧
      Occurs r.data r.position (sampleBits widths samples) := by
  induction widths generalizing r with
  | nil => exact ⟨[], rfl, .nil, h, nofun⟩
  | cons width widths ih =>
    have hsplit : totalBits (width :: widths) = width.bits + totalBits widths := rfl
    rw [hsplit, ← Nat.add_assoc] at h ⊢
    have hfits : r.position + width.bits ≤ r.bitCount := (Nat.le_add_right _ _).trans h
    obtain ⟨samples, hread, hsmall, hocc⟩ := ih (r := ⟨r.data, r.position + width.bits⟩) h
    refine ⟨r.peek width.bits :: samples, ?_, .cons (r.peek_lt width.bits) hsmall, ?_⟩
    · unfold readEach at hread ⊢
      rw [List.mapM_cons, StateT.run_bind, Reader.read_of_le hfits]
      simp [hread]
    · have hfirst := Reader.occurs_peek hfits
      exact Occurs.append_iff.mpr ⟨hfirst, by rw [length_expand]; exact hocc⟩

theorem allBits_write (start : ℕ) (widths : List Width) (samples : List ℕ) :
    Operation.allBits start (List.zipWith Operation.write samples widths) =
      sampleBits widths samples := by
  induction widths generalizing start samples with
  | nil => simp [sampleBits, Operation.allBits]
  | cons width widths ih =>
    cases samples with
    | nil => rfl
    | cons sample samples =>
      rw [List.zipWith_cons_cons, Operation.allBits, ih]
      rfl

/-- The writer of the samples of all bits of some bytes has these bytes. -/
theorem bytes_writeEach {data : Array UInt8} {widths : List Width} {samples : List ℕ}
    (hlength : (sampleBits widths samples).length = 8 * data.size)
    (hocc : Occurs data 0 (sampleBits widths samples)) :
    (writeEach widths samples).bytes = data := by
  have hholds := Operation.holds_run (List.zipWith Operation.write samples widths)
  rw [allBits_write] at hholds
  have hsize : (writeEach widths samples).bytes.size = data.size := by
    rw [writeEach, hholds.size_eq, hlength]
    omega
  refine eq_of_bitAt_eq hsize fun i hi => ?_
  rw [hsize, ← hlength] at hi
  rw [writeEach, hholds.bitAt_eq, List.getElem?_eq_getElem hi, Option.getD_some,
    ← hocc.bitAt_eq i hi, Nat.zero_add]

/-- Bytes that are cut into samples without a rest are written back from them. The samples differ
from those of all other bytes of the same number. -/
theorem writeEach_readEach {data : Array UInt8} {widths : List Width}
    (h : totalBits widths = 8 * data.size) :
    ∃ samples,
      (readEach widths).run (Reader.ofBytes data) = some (samples, ⟨data, 8 * data.size⟩) ∧
      List.Forall₂ (fun sample width => sample < 2 ^ width.bits) samples widths ∧
      (writeEach widths samples).bytes = data ∧
      ∀ other : Array UInt8, other.size = data.size → other ≠ data → ∃ samples',
        (readEach widths).run (Reader.ofBytes other) =
            some (samples', ⟨other, 8 * other.size⟩) ∧
          samples' ≠ samples := by
  have hbytes (bytes : Array UInt8) (hsize : bytes.size = data.size) : ∃ samples,
      (readEach widths).run (Reader.ofBytes bytes) = some (samples, ⟨bytes, 8 * bytes.size⟩) ∧
        List.Forall₂ (fun sample width => sample < 2 ^ width.bits) samples widths ∧
        (writeEach widths samples).bytes = bytes := by
    have htotal : (Reader.ofBytes bytes).position + totalBits widths = 8 * bytes.size := by
      rw [h, hsize, Reader.ofBytes, Nat.zero_add]
    obtain ⟨samples, hread, hsmall, hocc⟩ := exists_readEach htotal.le
    rw [htotal] at hread
    refine ⟨samples, hread, hsmall, bytes_writeEach ?_ hocc⟩
    rw [length_sampleBits hsmall.length_eq, h, hsize]
  obtain ⟨samples, hread, hsmall, hwrite⟩ := hbytes data rfl
  refine ⟨samples, hread, hsmall, hwrite, fun other hsize hne => ?_⟩
  obtain ⟨samples', hread', -, hwrite'⟩ := hbytes other hsize
  exact ⟨samples', hread', fun hsame => hne (by rw [← hwrite', hsame, hwrite])⟩

/-- Samples of twelve bits, which begin and end within bytes. -/
theorem writeEach_readEach_twelve :
    let data : Array UInt8 := #[0x98, 0x1f, 0xa9, 0xe9, 0x1a]
    let twelve : Width := ⟨12, by decide, by decide⟩
    let widths : List Width := [twelve, twelve, .one, twelve, ⟨3, by decide, by decide⟩]
    totalBits widths = 8 * data.size ∧
      (readEach widths).run (Reader.ofBytes data) =
        some ([0x981, 0xfa9, 1, 0xd23, 2], ⟨data, 40⟩) ∧
      (writeEach widths [0x981, 0xfa9, 1, 0xd23, 2]).bytes = data := by
  intro data twelve widths
  have htotal : totalBits widths = 8 * data.size := by decide
  have hread : (readEach widths).run (Reader.ofBytes data) =
      some ([0x981, 0xfa9, 1, 0xd23, 2], ⟨data, 40⟩) := by cbv
  obtain ⟨samples, hsamples, -, hwrite, -⟩ := writeEach_readEach htotal
  rw [hread] at hsamples
  cases hsamples
  exact ⟨htotal, hread, hwrite⟩

end SmoothShading.Bits
