import Patchbay.Curve.Basic

/-!
# Arc length

Lengths along a curve are measured by a march: the parameter advances in equal steps, and the
straight distances between the points passed are added up.
-/

namespace Patchbay

namespace Curve

variable {α : Type} [Scalar α]

def marchStep : α := 0.005

/-- Rounds after which a march from anywhere on the curve has run past its end: two hundred steps
cover all parameters, and one more leaves them. -/
def marchRounds : Nat := 201

/-- All control points coincide. -/
def IsPoint : Curve α → Prop
  | p :: q :: rest => p.Same q ∧ IsPoint (q :: rest)
  | _ => True

instance decidableIsPoint : (c : Curve α) → Decidable (IsPoint c)
  | p :: q :: rest =>
    have := decidableIsPoint (q :: rest)
    inferInstanceAs (Decidable (p.Same q ∧ IsPoint (q :: rest)))
  | [] => .isTrue trivial
  | [_] => .isTrue trivial

/-- A place on a curve. -/
structure Place (α : Type) where
  point : Point α
  location : α

/-- March from `at` in the given direction until `target` is covered or an end of the curve is
reached. `covered` is the length so far. -/
def march (c : Curve α) (direction target : α) : Nat → Place α → α → Place α
  | 0, here, _ => here
  | rounds + 1, here, covered =>
    if covered < target then
      let next := here.location + marchStep * direction
      if Scalar.Between 0 1 next then
        let there : Place α := ⟨pointAt c next, next⟩
        march c direction target rounds there (covered + here.point.distance there.point)
      else
        let last := Scalar.clamp 0 1 next
        ⟨pointAt c last, last⟩
    else here

/-- The place reached by walking `distance` along the curve from `location`, towards the start if
the distance is negative. The walk stops at either end. -/
def placeAlong (c : Curve α) (location distance : α) : Place α :=
  let location := Scalar.clamp 0 1 location
  let start : Place α := ⟨pointAt c location, location⟩
  if IsPoint c then start
  else
    let direction := if 0 < distance then 1 else -1
    march c direction (Scalar.abs distance) marchRounds start 0

/-- The length of the rest of the curve after a place, on top of `covered`. -/
def arcLengthFrom (c : Curve α) : Nat → Place α → α → α
  | 0, _, covered => covered
  | rounds + 1, here, covered =>
    if here.location < 1 then
      let location := Scalar.lesser (here.location + marchStep) 1
      let there : Place α := ⟨pointAt c location, location⟩
      arcLengthFrom c rounds there (covered + here.point.distance there.point)
    else covered

/-- The approximate length of the curve. -/
def arcLength (c : Curve α) : α :=
  if IsPoint c then 0 else arcLengthFrom c marchRounds ⟨pointAt c 0, 0⟩ 0

end Curve

end Patchbay
