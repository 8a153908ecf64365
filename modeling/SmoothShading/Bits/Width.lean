/-!
# Sample widths

A mesh stream is a sequence of unsigned samples, each of 1 to 32 bits. `Width` is such a number of
bits, and `mask` the largest sample that fits.
-/

namespace SmoothShading.Bits

/-- The number whose `n` lowest bits are set, and 32 of them if `n` is larger. -/
def mask (n : Nat) : Nat := (1 <<< min n 32) - 1

/-- The number of bits of one sample. -/
structure Width where
  bits : Nat
  pos : 1 ≤ bits
  le : bits ≤ 32
deriving DecidableEq

namespace Width

/-- Samples have at least one and at most 32 bits. -/
def ofNat? (bits : Nat) : Option Width :=
  if h : 1 ≤ bits ∧ bits ≤ 32 then some ⟨bits, h.1, h.2⟩ else none

/-- A single bit. -/
def one : Width := ⟨1, by decide, by decide⟩

/-- A full byte. -/
def eight : Width := ⟨8, by decide, by decide⟩

/-- The largest sample of this width: all of its bits are set. -/
def maxSample (w : Width) : Nat := mask w.bits

end Width

end SmoothShading.Bits
