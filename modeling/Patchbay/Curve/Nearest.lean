import Patchbay.Curve.Basic

/-!
# The nearest point of a curve

The distance from a point `p` to a curve `B` has an extremum where `(B(t) − p) · B'(t)` vanishes.
Written in the Bernstein basis, this polynomial is a curve over the parameter, and its zeros are
isolated by halving: a part whose control points do not change sign has none, a part that changes
sign once and is flat enough has the zero of its chord, and parts are halved down to a given depth.
-/

namespace Patchbay

namespace Curve

variable {α : Type} [Scalar α]

/-! ## The derivative of the distance -/

/-- The binomial coefficient of `n` and `k`, by the shorter of the two products. -/
def binomial (n k : Nat) : α := if n < k then 0 else coefficient n (min k (n - k))

/-- The control point `i` of the curve, as seen from `p`. -/
def offsetAt (p : Point α) (curve : Curve α) (i : Nat) : Point α :=
  curve[i]?.elim Point.origin (· - p)

/-- The control point `j` of the derivative of the curve. -/
def velocityAt (curve : Curve α) (j : Nat) : Point α :=
  match curve[j]?, curve[j + 1]? with
  | some a, some b => (b - a) * ((curve.length - 1 : Nat) : α)
  | _, _ => Point.origin

/-- The `k`-th Bernstein coefficient of `(B(t) − p) · B'(t)`, by the product rule of Bernstein
polynomials of degrees `n` and `n - 1`. -/
def slopeCoefficient (p : Point α) (c : Curve α) (k : Nat) : α :=
  let n := c.length - 1
  let m := n - 1
  (List.range' (k - m) (min k n + 1 - (k - m))).foldl
    (fun sum i =>
      sum + (velocityAt c (k - i)).dot (offsetAt p c i) *
        (binomial m (k - i) * binomial n i / binomial (n + m) k))
    0

/-- The polynomial `(B(t) − p) · B'(t)` as a curve over its parameter, for a curve of at least two
control points. -/
def slopeCurve (p : Point α) (c : Curve α) : Curve α :=
  let degree := c.length - 1 + (c.length - 1 - 1)
  (List.range (degree + 1)).map fun k : Nat => ⟨k / (degree : α), slopeCoefficient p c k⟩

/-! ## Isolating zeros -/

/-- How far zeros are isolated: to the given depth of halving, or until the zero of a flat part is
known to the given tolerance. -/
structure Precision (α : Type) where
  depth : Nat
  tolerance : α

/-- Sixty-four halvings, or half of the width they leave. -/
def Precision.standard : Precision α where
  depth := 64
  tolerance := 1 / (36893488147419103232 : Nat)

/-- Neighbouring control points on different sides of the axis. Zero counts as above. -/
def crossings : Curve α → Nat
  | p :: q :: rest =>
    (if decide (p.y < 0) = decide (q.y < 0) then 0 else 1) + crossings (q :: rest)
  | _ => 0

/-- The signed distances of the inner control points from the chord, up to a common factor, above
and below. -/
def bulge (first last : Point α) (inner : Curve α) : α × α :=
  let a := first.y - last.y
  let b := last.x - first.x
  let c := first.x * last.y - last.x * first.y
  inner.foldl
    (fun (above, below) p =>
      let value := a * p.x + b * p.y + c
      if above < value then (value, below)
      else if value < below then (above, value)
      else (above, below))
    (0, 0)

/-- The two parallels to the chord that enclose all control points meet the axis within the
tolerance of each other. -/
def FlatEnough (first last : Point α) (inner : Curve α) (tolerance : α) : Prop :=
  let c := first.x * last.y - last.x * first.y
  let det := -(first.y - last.y)
  let (above, below) := bulge first last inner
  Scalar.abs ((c - above) / det - (c - below) / det) < tolerance

instance (first last : Point α) (inner : Curve α) (tolerance : α) :
    Decidable (FlatEnough first last inner tolerance) :=
  inferInstanceAs (Decidable (_ < _))

/-- Where the chord between two points meets the axis. -/
def chordZero (first last : Point α) : α :=
  ((last.x - first.x) * first.y - (last.y - first.y) * first.x) / -(last.y - first.y)

/-- The zeros of a curve over its parameter, from left to right, with `depth` halvings left. -/
def zeros (tolerance : α) : Nat → Curve α → List α
  | depth, w =>
    match crossings w, w.head?, w.getLast? with
    | 0, _, _ | _, none, _ | _, _, none => []
    | count + 1, some first, some last =>
      match depth with
      | 0 => [Scalar.half (first.x + last.x)]
      | depth + 1 =>
        if count = 0 ∧ FlatEnough first last w.tail.dropLast tolerance then
          [chordZero first last]
        else
          let (left, right) := split w (Scalar.half 1)
          zeros tolerance depth left ++ zeros tolerance depth right

/-! ## Distance -/

/-- A parameter of a curve and the squared distance to the curve there. -/
structure Approach (α : Type) where
  location : α
  distanceSquared : α

def Approach.distance (a : Approach α) : α := Scalar.sqrt a.distanceSquared

/-- The closest approach of a curve to a point. The start counts first, then the zeros in order,
then the end, and a later one wins only if it is closer. A curve without points is taken to be at
the origin. -/
def approachWithin (precision : Precision α) (p : Point α) (c : Curve α) : Approach α :=
  match c.head?, c.getLast? with
  | some first, some last =>
    let start : Approach α := ⟨0, (p - first).lengthSquared⟩
    if c.length = 1 then start
    else
      let found := (zeros precision.tolerance precision.depth (slopeCurve p c)).filter
        fun t => Scalar.Finite t
      let inner := found.map fun t =>
        let t := Scalar.clamp 0 1 t
        (t, evaluate c t)
      (inner ++ [(1, last)]).foldl
        (fun best (t, q) =>
          let d := (p - q).lengthSquared
          if d < best.distanceSquared then ⟨t, d⟩ else best)
        start
  | _, _ => ⟨0, p.lengthSquared⟩

/-- The closest approach of a curve to a point, to the standard precision. -/
def approach (p : Point α) (c : Curve α) : Approach α := approachWithin .standard p c

end Curve

end Patchbay
