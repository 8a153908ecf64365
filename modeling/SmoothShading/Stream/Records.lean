import SmoothShading.Bits.Reader

/-!
# Streams of records

A stream is read record by record until fewer than eight bits are left, which are padding. A stream
that ends in the middle of a record keeps the records before it; how far the last one came is its
`Tail`.
-/

namespace SmoothShading

/-- What follows the last complete record of a stream. -/
inductive Tail (η : Type) where
  /-- Nothing but padding. -/
  | padding
  /-- A record that ends in its head. -/
  | cutHead
  /-- A record that ends behind its head. -/
  | cutBody (head : η)
deriving DecidableEq

/-- Whether a record was cut off. -/
def Tail.isCut {η : Type} : Tail η → Bool
  | .padding => false
  | _ => true

/-- The records of a stream, and what follows them. -/
structure Records (η β : Type) where
  complete : List β
  tail : Tail η

namespace Records

open Bits

/-- Reads records made of a head and of a body that depends on it. A record that takes no bits
would repeat for ever, so the stream ends with it. -/
def read {η β : Type} (head : BitParser η) (body : η → BitParser β) (r : Reader) : Records η β :=
  if r.remaining < 8 then ⟨[], .padding⟩
  else
    match head.run r with
    | none => ⟨[], .cutHead⟩
    | some (h, s) =>
      match (body h).run s with
      | none => ⟨[], .cutBody h⟩
      | some (b, next) =>
        if next.remaining < r.remaining then
          let rest := read head body next
          ⟨b :: rest.complete, rest.tail⟩
        else ⟨[b], .padding⟩
termination_by r.remaining

end Records

end SmoothShading
