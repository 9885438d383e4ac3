import Patchbay.Geometry.Point

/-!
# Bézier curves

A curve is the list of its control points, of any length. Two evaluations stand beside each other:
the weighted sum of Bernstein polynomials, and repeated interpolation, which also splits the curve.
Both give the origin on the empty curve.
-/

namespace Patchbay

/-- The control points of a Bézier curve, from start to end. -/
abbrev Curve (α : Type) := List (Point α)

namespace Curve

variable {α : Type} [Scalar α]

/-! ## The Bernstein form -/

/-- The binomial coefficient of `n` and `k`, as a running product of quotients. -/
def coefficient (n : Nat) : Nat → α
  | 0 => 1
  | k + 1 => coefficient n k * (n - k : Nat) / (k + 1 : Nat)

/-- The share of the `i`-th control point of a curve of the given degree. -/
def weight (degree i : Nat) (t : α) : α :=
  coefficient degree i * Scalar.power t i * Scalar.power (1 - t) (degree - i)

/-- The point at the parameter `t`, as the sum of the control points by their weights. -/
def pointAt (c : Curve α) (t : α) : Point α :=
  c.zipIdx.foldl (fun sum (p, i) => sum + p * weight (c.length - 1) i t) Point.origin

/-! ## Repeated interpolation -/

/-- Interpolate between neighbouring control points, which leaves one point fewer. -/
def interpolate (t : α) : Curve α → Curve α
  | p :: q :: rest => p.lerp q t :: interpolate t (q :: rest)
  | _ => []

theorem length_interpolate (t : α) (c : Curve α) :
    (interpolate t c).length = c.length - 1 := by
  fun_induction interpolate t c with
  | case1 p q rest ih => simp [ih]
  | case2 c h =>
    match c, h with
    | [], _ => rfl
    | [_], _ => rfl
    | p :: q :: rest, h => exact absurd rfl (h p q rest)

/-- The rows of the interpolation triangle, from the curve itself down to a single point. -/
def rows (t : α) : Curve α → List (Curve α)
  | [] => []
  | p :: rest => (p :: rest) :: rows t (interpolate t (p :: rest))
termination_by c => c.length
decreasing_by simp [length_interpolate]

/-- The part of the curve before `t` and the part after it, each of the same degree: the two edges
of the interpolation triangle. -/
def split (c : Curve α) (t : α) : Curve α × Curve α :=
  ((rows t c).filterMap List.head?, ((rows t c).filterMap List.getLast?).reverse)

/-- The point at the parameter `t`, by interpolating until a single point is left. -/
def evaluate (c : Curve α) (t : α) : Point α := (split c t).1.getLast?.getD Point.origin

/-! ## Tangents -/

/-- The angle of the tangent at `t`. The curves of all control points but the last and of all but
the first differ by a multiple of the derivative. A vertical tangent gives a right angle, and a
curve without a direction gives zero. -/
def gradient (c : Curve α) (t : α) : α :=
  if c.length < 2 then 0
  else
    let step := pointAt c.tail t - pointAt c.dropLast t
    if Scalar.Same step.x 0 then Scalar.rightAngle else Scalar.arctan (step.y / step.x)

end Curve

end Patchbay
