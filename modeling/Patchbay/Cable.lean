import Patchbay.Curve.Basic
import Patchbay.Shape.Id

/-!
# Cables

A cable leaves an output magnet. It is loose while it is dragged, with its end anywhere, and
attached once it lands on an input magnet. It is drawn as a cubic curve, which is kept until one of
its ends may have moved.
-/

namespace Patchbay

/-- A cable from an output magnet to at most one input magnet. -/
structure Cable (α : Type) where
  source : Terminal
  dest : Option Terminal
  /-- Where the loose end is, or where it was when the cable was attached. -/
  freeEnd : Point α
  /-- The curve that was drawn last, if it still holds. -/
  drawn : Option (Curve α)

namespace Cable

variable {α : Type}

/-- A cable that has not been drawn. -/
def make (source : Terminal) (dest : Option Terminal) (freeEnd : Point α) : Cable α :=
  ⟨source, dest, freeEnd, none⟩

def isAttached (c : Cable α) : Bool := c.dest.isSome

def ends (c : Cable α) : List Terminal := c.source :: c.dest.toList

/-- Forget the curve, because an end may have moved. -/
def forgetCurve (c : Cable α) : Cable α := { c with drawn := none }

variable [Scalar α]

/-- The least reach of the inner control points. -/
def minReach : α := (20 : Nat)

/-- The cubic curve that leaves `source` and enters `dest` horizontally. -/
def curveBetween (source dest : Point α) : Curve α :=
  let reach := Scalar.greater (Scalar.half (Scalar.abs (dest.x - source.x))) minReach
  [source, ⟨source.x + reach, source.y⟩, ⟨dest.x - reach, dest.y⟩, dest]

end Cable

end Patchbay
