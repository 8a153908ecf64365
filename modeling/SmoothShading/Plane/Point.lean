import SmoothShading.Scalar

/-!
# Points

Points of the plane and the displacements between them are one type, with the operations of each.
-/

namespace SmoothShading

/-- A point, or the displacement from one point to another. -/
structure Point (K : Type) where
  x : K
  y : K

namespace Point

variable {K : Type} [Scalar K]

instance instAdd : Add (Point K) := ⟨fun p q => ⟨p.x + q.x, p.y + q.y⟩⟩

instance instSub : Sub (Point K) := ⟨fun p q => ⟨p.x - q.x, p.y - q.y⟩⟩

instance instHMul : HMul (Point K) K (Point K) := ⟨fun p s => ⟨p.x * s, p.y * s⟩⟩

/-- Applies one function to both coordinates. -/
def map {C : Type} (f : C → K) (p : Point C) : Point K := ⟨f p.x, f p.y⟩

def dot (p q : Point K) : K := p.x * q.x + p.y * q.y

/-- The squared length of a displacement. -/
def normSq (p : Point K) : K := p.dot p

/-- The squared distance of two points. -/
def distSq (p q : Point K) : K := (p - q).normSq

def dist (p q : Point K) : K := Scalar.sqrt (p.distSq q)

/-- The nearest point with integer coordinates. -/
def round (p : Point K) : Point K := p.map Scalar.round

def isFinite (p : Point K) : Bool := Scalar.isFinite p.x && Scalar.isFinite p.y

end Point

end SmoothShading
