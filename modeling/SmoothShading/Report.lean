import SmoothShading.Color.Function

/-!
# Warnings

What is wrong with a shading seldom prevents painting it. A `Reported` value comes with the warnings
that arose on the way to it, in the order in which they arose.
-/

namespace SmoothShading

/-- A defect that painting goes on after. -/
inductive Warning where
  /-- The stream ends in the middle of a record. -/
  | truncatedStream
  /-- A flag has no meaning where it stands. -/
  | invalidFlag
  /-- A record continues its predecessor, but there is none. -/
  | missingPredecessor
  /-- A color could not be converted and is painted black. -/
  | colorConversion (cause : ConversionError)
  /-- The shading is unusable, and its background alone is painted. -/
  | constructionFailure
deriving DecidableEq

/-- A value and the warnings that led to it, the earliest first. -/
structure Reported (α : Type) where
  value : α
  warnings : List Warning

namespace Reported

variable {α β : Type}

/-- A value that nothing is wrong with. -/
def pure (a : α) : Reported α := ⟨a, []⟩

def map (f : α → β) (r : Reported α) : Reported β := ⟨f r.value, r.warnings⟩

/-- Goes on with the value; the later warnings follow the earlier ones. -/
def bind (r : Reported α) (f : α → Reported β) : Reported β :=
  let s := f r.value
  ⟨s.value, r.warnings ++ s.warnings⟩

/-- Puts warnings before those of a value. -/
def after (r : Reported α) (earlier : List Warning) : Reported α :=
  ⟨r.value, earlier ++ r.warnings⟩

/-- Collects values and their warnings, both in order. -/
def collect (rs : List (Reported α)) : Reported (List α) :=
  ⟨rs.map (·.value), rs.flatMap (·.warnings)⟩

end Reported

end SmoothShading
