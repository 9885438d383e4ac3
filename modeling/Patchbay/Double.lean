import Patchbay.Scalar

/-!
# Doubles

IEEE 754 binary64 numbers, held as their bits. The total order of IEEE 754 puts an undefined value
below or above all others according to its sign, and core's `Float` forgets that sign, so it is
kept here: an operation on defined values that has no defined result gives the undefined value with
the sign bit set, and an undefined operand, the first if there are two, is passed on as it is.

On all defined values the operations are those of `Float`.
-/

namespace Patchbay

/-- A binary64 number. -/
structure Double where
  bits : UInt64
deriving DecidableEq, Inhabited

namespace Double

/-! ## Bits -/

/-- The bit that carries the sign. -/
def signBit : UInt64 := 0x8000000000000000

def isNegative (a : Double) : Bool := a.bits &&& signBit != 0

/-- The bits without the sign, in the order of the absolute values. -/
def magnitude (a : Double) : UInt64 := a.bits &&& 0x7fffffffffffffff

/-- The magnitude that infinity has; greater ones are undefined values. -/
def infiniteMagnitude : UInt64 := 0x7ff0000000000000

def isNaN (a : Double) : Bool := infiniteMagnitude < a.magnitude

def isInfinite (a : Double) : Bool := a.magnitude == infiniteMagnitude

/-- The undefined value with a clear sign, the one that is written as a literal. -/
def nan : Double := ⟨0x7ff8000000000000⟩

/-- The undefined value that an operation without a result gives. -/
def invalid : Double := ⟨0xfff8000000000000⟩

def infinity : Double := ⟨infiniteMagnitude⟩

/-! ## Arithmetic -/

/-- The same number as a core float, which has one undefined value only. -/
@[inline] def toFloat (a : Double) : Float := Float.ofBits a.bits

/-- The result of an operation on defined values. -/
@[inline] def ofResult (r : Float) : Double := if r.isNaN then invalid else ⟨r.toBits⟩

/-- Carry a binary operation over from core floats. -/
@[inline] def map₂ (op : Float → Float → Float) (a b : Double) : Double :=
  if a.isNaN then a else if b.isNaN then b else ofResult (op a.toFloat b.toFloat)

/-- Carry a unary operation over from core floats. -/
@[inline] def map (op : Float → Float) (a : Double) : Double :=
  if a.isNaN then a else ofResult (op a.toFloat)

/-- Negation flips the sign bit, also of an undefined value. -/
protected def neg (a : Double) : Double := ⟨a.bits ^^^ signBit⟩

/-- The nearest number to a natural number. -/
protected def ofNat (n : Nat) : Double := ⟨(Float.ofNat n).toBits⟩

/-- The nearest number to `digits` scaled by a power of ten, down if `down` is set. -/
protected def ofScientific (digits : Nat) (down : Bool) (exponent : Nat) : Double :=
  ⟨(Float.ofScientific digits down exponent).toBits⟩

/-! ## Order -/

/-- The place of a number in the total order: undefined values outside the infinities, and
negative zero before zero. -/
def rank (a : Double) : Int :=
  if a.isNegative then -(a.magnitude.toNat : Int) - 1 else a.magnitude.toNat

instance : LT Double := ⟨fun a b => a.toFloat < b.toFloat⟩
instance : LE Double := ⟨fun a b => a.toFloat ≤ b.toFloat⟩

instance : Scalar Double where
  zero := ⟨0⟩
  one := ⟨0x3ff0000000000000⟩
  add := map₂ (· + ·)
  sub := map₂ (· - ·)
  mul := map₂ (· * ·)
  div := map₂ (· / ·)
  neg := Double.neg
  natCast := Double.ofNat
  ofScientific := Double.ofScientific
  decidableLT a b := inferInstanceAs (Decidable (a.toFloat < b.toFloat))
  decidableLE a b := inferInstanceAs (Decidable (a.toFloat ≤ b.toFloat))
  sqrt := map Float.sqrt
  arctan := map Float.atan
  rightAngle := ⟨0x3ff921fb54442d18⟩
  totalOrder a b := compare a.rank b.rank

end Double

end Patchbay
