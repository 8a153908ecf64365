import SmoothShading.Bits.Width

/-!
# Reading samples

A `Reader` walks over the bits of a byte array, the most significant bit of each byte first.
`Reader.attempt` asks for the next sample, of which there is none where too few bits are left, and
it leaves a reader in either case. `Reader.read` fails instead, and `Reader.align` skips to the next
byte. These two have the shape of a step of `BitParser`, the readers of composite records.
-/

namespace SmoothShading.Bits

/-- A position, counted in bits, in an array of bytes. -/
structure Reader where
  data : Array UInt8
  position : Nat

/-- A reader of one value, which fails where the bits run out. -/
abbrev BitParser (α : Type) : Type := StateT Reader Option α

namespace Reader

/-- The reader at the first bit. -/
def ofBytes (data : Array UInt8) : Reader := ⟨data, 0⟩

/-- The number of bits before and after the position taken together. -/
def bitCount (r : Reader) : Nat := 8 * r.data.size

/-- The number of bits that were not read yet. -/
def remaining (r : Reader) : Nat := r.bitCount - r.position

/-- The byte that holds the next bit. -/
def bytePosition (r : Reader) : Nat := r.position / 8

/-- The place of the next bit in its byte. -/
def bitPosition (r : Reader) : Nat := r.position % 8

/-- Whether no byte holds a next bit. -/
def atEnd (r : Reader) : Bool := r.data.size ≤ r.bytePosition

/-- The next `n` bits as a number: the bytes from `first` up to `stop` hold all of them, and the
bits behind the last one are shifted out. -/
def peek (r : Reader) (n : Nat) : Nat :=
  let first := r.position / 8
  let stop := (r.position + n + 7) / 8
  let window := (r.data.extract first stop).foldl (fun acc byte => acc * 256 + byte.toNat) 0
  window >>> (8 * stop - (r.position + n)) % (1 <<< n)

/-- Asks for the next sample, and moves behind it if enough bits are left. -/
def attempt (w : Width) : StateM Reader (Option Nat) := do
  let r ← get
  if r.position + w.bits ≤ r.bitCount then
    set { r with position := r.position + w.bits }
    return some (r.peek w.bits)
  else
    return none

/-- The next sample, if there is one. -/
def read (w : Width) : BitParser Nat := fun r =>
  match (attempt w).run r with
  | (some sample, next) => some (sample, next)
  | (none, _) => none

/-- The reader at the next byte boundary, which is the present position if that is one. -/
def aligned (r : Reader) : Reader := { r with position := 8 * ((r.position + 7) / 8) }

/-- Skips to the next byte boundary. -/
def align : BitParser Unit := fun r => some ((), r.aligned)

end Reader

/-- Reads `n` values one after another. -/
def BitParser.times {α : Type} (parse : BitParser α) : (n : Nat) → BitParser (Vector α n)
  | 0 => return #v[]
  | n + 1 => do
    let earlier ← times parse n
    let last ← parse
    return earlier.push last

end SmoothShading.Bits
