import SmoothShading.Bits.Width

/-!
# Writing samples

A `Writer` packs samples into bytes, the most significant bit of each byte first, which is the
order `Reader` takes them in. Bits that are skipped by `Writer.align` or behind the last sample are
zero.
-/

namespace SmoothShading.Bits

/-- The bytes so far and the position, in bits, of the next one. -/
structure Writer where
  bytes : Array UInt8 := #[]
  position : Nat := 0

namespace Writer

/-- The writer of nothing. -/
def empty : Writer := {}

/-- Appends one bit. A byte is added, all zero, when its first bit is written. -/
def pushBit (w : Writer) (bit : Bool) : Writer :=
  let slot := w.position / 8
  let bytes := if slot = w.bytes.size then w.bytes.push 0 else w.bytes
  let bytes :=
    if bit then bytes.modify slot (· ||| UInt8.ofNat (128 >>> (w.position % 8))) else bytes
  ⟨bytes, w.position + 1⟩

/-- Appends the lowest bits of `value`, as many as the width says, from the highest one down. -/
def write (w : Writer) (value : Nat) (width : Width) : Writer :=
  (List.range width.bits).foldl (fun w i => w.pushBit (value.testBit (width.bits - 1 - i))) w

/-- Appends several samples of one width. -/
def writeAll (w : Writer) (values : List Nat) (width : Width) : Writer :=
  values.foldl (·.write · width) w

/-- Skips to the next byte boundary. -/
def align (w : Writer) : Writer := { w with position := 8 * ((w.position + 7) / 8) }

end Writer

end SmoothShading.Bits
