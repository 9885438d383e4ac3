/-!
# Scalars

The arithmetic that geometry and layout are written in. Everything on the canvas is stated for an
arbitrary type of scalars, so that one set of definitions runs on machine numbers and is reasoned
about over an ordered field.

The class lists what a scalar must offer: the field operations, numerals, two order tests, a square
root, an arc tangent with its limit value, and a total order. The rest is derived from the order
tests. They say `false` on a value that is not a number, and the derived operations are written so
that they keep the usual conventions on such values: the lesser or greater of two values is the
other one when one is not a number, clamping leaves such a value alone, and no interval holds it.
-/

namespace Patchbay

/-- Numbers with the operations that drawing needs. -/
class Scalar (α : Type) extends Zero α, One α, Add α, Sub α, Mul α, Div α, Neg α, NatCast α,
    OfScientific α, LT α, LE α where
  decidableLT : DecidableLT α
  decidableLE : DecidableLE α
  /-- The square root. -/
  sqrt : α → α
  /-- The angle whose tangent is given. -/
  arctan : α → α
  /-- A quarter of a turn, the angle of a vertical line. -/
  rightAngle : α
  /-- A total order that refines the order tests, used to sort. -/
  totalOrder : α → α → Ordering

namespace Scalar

variable {α : Type} [Scalar α]

instance : DecidableLT α := decidableLT
instance : DecidableLE α := decidableLE

/-- Equality as the order tests see it. -/
def Same (a b : α) : Prop := a ≤ b ∧ b ≤ a

instance (a b : α) : Decidable (Same a b) := inferInstanceAs (Decidable (_ ∧ _))

/-- Neither infinite nor undefined: the value cancels against itself. -/
def Finite (a : α) : Prop := Same (a - a) 0

instance (a : α) : Decidable (Finite a) := inferInstanceAs (Decidable (Same _ _))

/-- The closed interval from `lo` to `hi` holds `a`. -/
def Between (lo hi a : α) : Prop := lo ≤ a ∧ a ≤ hi

instance (lo hi a : α) : Decidable (Between lo hi a) := inferInstanceAs (Decidable (_ ∧ _))

def lesser (a b : α) : α := if a ≤ b ∨ ¬ b ≤ b then a else b

def greater (a b : α) : α := if b ≤ a ∨ ¬ b ≤ b then a else b

/-- The value of the interval from `lo` to `hi` nearest to `a`. -/
def clamp (lo hi a : α) : α :=
  let raised := if a < lo then lo else a
  if hi < raised then hi else raised

def abs (a : α) : α := if a < 0 then -a else a

def half (a : α) : α := a / (2 : Nat)

/-- A difference too small to divide by: the distance from one to the next binary64 number. -/
def tiny : α := 1 / (4503599627370496 : Nat)

/-! ## Powers -/

/-- `acc` times the `n`-th power of `a`, by squaring `a` and multiplying by the squares that the
binary digits of `n` select, lowest digit first. -/
def powerInto (a : α) (n : Nat) (acc : α) : α :=
  let acc := if n % 2 = 1 then acc * a else acc
  if n / 2 = 0 then acc else powerInto (a * a) (n / 2) acc
termination_by n

def power (a : α) (n : Nat) : α := powerInto a n 1

end Scalar

end Patchbay
