import Patchbay.Double

/-!
# Shortest decimals

The decimal with the fewest digits that reads back as a given number, and of those the one nearest
to it.

A positive number `m · 2^q` is what every real between its two midpoints to the neighbours rounds
to, with the midpoints themselves if `m` is even. On the grid of decimals with a given number of
digits, if any point lies between the midpoints then one of the two points next to the number does,
so only those are tried, on finer and finer grids.
-/

namespace Patchbay

namespace Double

/-- The bit above the fraction, which normal numbers have although it is not stored. -/
def hiddenBit : Nat := 0x10000000000000

/-- The fraction bits, with the hidden bit of a normal number. -/
def significand (a : Double) : Nat :=
  let fraction := a.magnitude.toNat % hiddenBit
  if a.magnitude.toNat < hiddenBit then fraction else fraction + hiddenBit

/-- The power of two by which the significand is scaled. -/
def exponent (a : Double) : Int :=
  ((max (a.magnitude.toNat / hiddenBit) 1 : Nat) : Int) - 1075

end Double

/-- The number `digits · 10^exponent`. -/
structure Decimal where
  digits : Nat
  exponent : Int
deriving DecidableEq

namespace Decimal

def tenTo (n : Nat) : Nat := Nat.pow 10 n

def twoTo (n : Nat) : Nat := Nat.pow 2 n

/-- The most digits that a double needs. -/
def maxDigits : Nat := 17

/-- The greatest power of ten not above `num / den`, searched from `start` downwards. -/
def leadingExponent (num den : Nat) (start : Int) : Nat → Int
  | 0 => start
  | fuel + 1 =>
    let reached := if 0 ≤ start then den * tenTo start.toNat ≤ num
      else den ≤ num * tenTo (-start).toNat
    if reached then start else leadingExponent num den (start - 1) fuel

/-- The number `num / den` and the ends of the interval around it that rounds to it. All are
numerators over the same denominator. -/
structure Interval where
  num : Nat
  lower : Nat
  upper : Nat
  den : Nat
  closed : Bool

/-- The interval of reals that round to a positive finite double. Below a power of two the
neighbours are twice as close. -/
def Interval.ofDouble (a : Double) : Interval :=
  let m := a.significand
  let q := a.exponent - 2
  let below := if m = Double.hiddenBit ∧ -1074 < a.exponent then 1 else 2
  let scale := twoTo q.toNat
  ⟨4 * m * scale, (4 * m - below) * scale, (4 * m + 2) * scale, twoTo (-q).toNat, m % 2 = 0⟩

/-- The interval holds `k` units of `unitNum / unitDen`. -/
def Interval.holds (i : Interval) (unitNum unitDen k : Nat) : Bool :=
  let value := k * unitNum * i.den
  if i.closed then i.lower * unitDen ≤ value ∧ value ≤ i.upper * unitDen
  else i.lower * unitDen < value ∧ value < i.upper * unitDen

/-- The point of the grid with step `10^exponent` that lies in the interval and is nearest to the
number. -/
def Interval.onGrid? (i : Interval) (exponent : Int) : Option Decimal :=
  let unitNum := tenTo exponent.toNat
  let unitDen := tenTo (-exponent).toNat
  let floor := i.num * unitDen / (i.den * unitNum)
  let rest := i.num * unitDen % (i.den * unitNum)
  let down := i.holds unitNum unitDen floor
  let up := i.holds unitNum unitDen (floor + 1)
  let nearestIsUp :=
    i.den * unitNum < 2 * rest ∨ (i.den * unitNum = 2 * rest ∧ floor % 2 = 1)
  if down ∧ (¬ up ∨ ¬ nearestIsUp) then some ⟨floor, exponent⟩
  else if up then some ⟨floor + 1, exponent⟩
  else none

/-- The first hit on grids with `used + 1`, `used + 2`, … digits. -/
def Interval.firstHit (i : Interval) (leading : Int) : Nat → Nat → Decimal
  | _, 0 => ⟨0, 0⟩
  | used, fuel + 1 =>
    match i.onGrid? (leading - used) with
    | some d => d
    | none => firstHit i leading (used + 1) fuel

/-- Drop zeros at the end of the digits. -/
def trim (d : Decimal) : Decimal :=
  if d.digits = 0 then ⟨0, 0⟩
  else if d.digits % 10 = 0 then trim ⟨d.digits / 10, d.exponent + 1⟩
  else d
termination_by d.digits
decreasing_by exact Nat.div_lt_self (Nat.pos_of_ne_zero ‹_›) (by decide)

/-- The shortest decimal of the absolute value of a finite double. -/
def shortest (a : Double) : Decimal :=
  if a.significand = 0 then ⟨0, 0⟩
  else
    let i := Interval.ofDouble a
    let leading := leadingExponent i.num i.den 308 640
    (i.firstHit leading 0 maxDigits).trim

/-- The exponent of the first digit. -/
def leading (d : Decimal) : Int := d.exponent + (Nat.toDigits 10 d.digits).length - 1

end Decimal

end Patchbay
