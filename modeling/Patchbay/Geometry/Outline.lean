import Patchbay.Geometry.Point

/-!
# Outlines

Which points polygons and ellipses hold.
-/

namespace Patchbay

namespace Outline

variable {α : Type} [Scalar α]

/-- The edges of a closed polygon. Each corner comes with the corner before it, the first one with
the last. -/
def edges (polygon : List (Point α)) : List (Point α × Point α) :=
  polygon.zip (polygon.getLast?.toList ++ polygon.dropLast)

/-- The ray from `p` to the right crosses the line from `a` to `b`. The upper end belongs to the
line and the lower one does not. -/
def Crosses (p a b : Point α) : Prop :=
  decide (p.y < a.y) ≠ decide (p.y < b.y) ∧
    p.x < (b.x - a.x) * (p.y - a.y) / (b.y - a.y) + a.x

instance (p a b : Point α) : Decidable (Crosses p a b) := inferInstanceAs (Decidable (_ ∧ _))

/-- The polygon holds the point: a ray from it crosses an odd number of edges. A point on an edge
may fall either way. -/
def PolygonContains (polygon : List (Point α)) (p : Point α) : Prop :=
  3 ≤ polygon.length ∧ (edges polygon).countP (fun e => Crosses p e.1 e.2) % 2 = 1

instance (polygon : List (Point α)) (p : Point α) : Decidable (PolygonContains polygon p) :=
  inferInstanceAs (Decidable (_ ∧ _))

/-- The ellipse with the given centre and half axes holds the point. -/
def EllipseContains (center : Point α) (rx ry : α) (p : Point α) : Prop :=
  ¬ (rx ≤ 0 ∨ ry ≤ 0) ∧
    let nx := (p.x - center.x) / rx
    let ny := (p.y - center.y) / ry
    nx * nx + ny * ny ≤ 1

instance (center : Point α) (rx ry : α) (p : Point α) :
    Decidable (EllipseContains center rx ry p) :=
  inferInstanceAs (Decidable (_ ∧ _ ≤ _))

end Outline

end Patchbay
