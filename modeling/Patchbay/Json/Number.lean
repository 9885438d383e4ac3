import Patchbay.Json.Reader

/-!
# Numbers in JSON

A number is read in two stages: its digits are taken off the text, and their value is worked out. A
number without fraction and exponent is an integer if it fits into 64 bits. Any other number is
read as the product of two doubles: its digits, as far as they fit into 64 bits, and a power of ten.
Each of the two is rounded, and so is their product, so the result may be next to the nearest
double.

A double is written in the fewest digits.
-/

namespace Patchbay

namespace Json

/-! ## Digits -/

/-- The digits of a number. -/
structure Literal where
  isNegative : Bool
  whole : List Char
  fraction : List Char
  /-- The exponent, if there is one: whether it is negative, and its digits. -/
  exponent : Option (Bool × List Char)
  /-- Neither fraction nor exponent is written. -/
  isWhole : Bool

namespace Reader

/-- Pass at least one digit. At the end of the text `atEnd` is the fault. -/
def digits (atEnd : Reason) : Reader (List Char) := do
  match (← get).rest with
  | [] => failHere atEnd
  | c :: _ => if isDigit c then takeWhile isDigit else failNext .badNumber

/-- Pass the digits before the point. A zero comes alone. -/
def wholeDigits (atEnd : Reason) : Reader (List Char) := do
  match (← get).rest with
  | '0' :: c :: _ => do
    advance
    if isDigit c then failNext .badNumber else return ['0']
  | _ => digits atEnd

/-- Pass the point and the digits after it, if there is a point. -/
def fractionDigits (atEnd : Reason) : Reader (Option (List Char)) := do
  match (← get).rest with
  | '.' :: _ => do
    advance
    return some (← digits atEnd)
  | _ => return none

/-- Pass the sign of an exponent. -/
def exponentSign : Reader Bool := do
  match (← get).rest with
  | '-' :: _ => do
    advance
    return true
  | '+' :: _ => do
    advance
    return false
  | _ => return false

/-- Pass the exponent, if there is one. -/
def exponentDigits (atEnd : Reason) : Reader (Option (Bool × List Char)) := do
  let c := (← get).rest.head?
  if c = some 'e' ∨ c = some 'E' then do
    advance
    let isNegative ← exponentSign
    return some (isNegative, ← digits atEnd)
  else return none

/-- Read the digits of a number. At the end of the text `atEnd` is the fault. -/
def literal (atEnd : Reason) : Reader Literal := do
  let isNegative := (← get).rest.head? = some '-'
  if isNegative then advance
  let whole ← wholeDigits atEnd
  let fraction ← fractionDigits atEnd
  let exponent ← exponentDigits atEnd
  return ⟨isNegative, whole, fraction.getD [], exponent, fraction.isNone ∧ exponent.isNone⟩

end Reader

/-! ## Values -/

/-- The value of a number. -/
inductive Number
  | integer (value : Int)
  | real (value : Double)
deriving DecidableEq

def digitValue (c : Char) : Nat := c.toNat - '0'.toNat

/-- Continue a number by digits while it stays below a limit. The digits that are left over are
given too. -/
def accumulate (limit : Nat) (n : Nat) : List Char → Nat × List Char
  | [] => (n, [])
  | c :: cs =>
    let more := 10 * n + digitValue c
    if more < limit then accumulate limit more cs else (n, c :: cs)

/-- The digits of a number as far as they fit into 64 bits, and the power of ten that they are to
be scaled by. -/
def Literal.parts (l : Literal) : Nat × Int :=
  let (significand, beyond) := accumulate UInt64.size 0 l.whole
  let (significand, unused) := accumulate UInt64.size significand l.fraction
  (significand, (beyond.length : Int) + unused.length - l.fraction.length)

/-- The power of ten that is nearest to it among the doubles. -/
def powerOfTen (n : Nat) : Double := Double.ofScientific 1 false n

/-- The greatest power of ten below infinity. -/
def greatestPower : Nat := 308

/-- Divide by a power of ten, in as many divisions as it takes. -/
def scaleDown (f : Double) (n : Nat) : Double :=
  if n ≤ greatestPower then f / powerOfTen n
  else if f = 0 then f
  else scaleDown (f / powerOfTen greatestPower) (n - greatestPower)
termination_by n
decreasing_by simp only [greatestPower] at *; omega

/-- Multiply by a power of ten. The result must be finite. -/
def scaleUp? (f : Double) (n : Nat) : Option Double :=
  if n ≤ greatestPower then
    let product := f * powerOfTen n
    if product.isInfinite then none else some product
  else if f = 0 then some f else none

/-- Digits scaled by a power of ten. -/
def scaled? (significand : Nat) (exponent : Int) : Option Double :=
  if 0 ≤ exponent then scaleUp? significand exponent.toNat
  else some (scaleDown significand (-exponent).toNat)

/-- The value of an exponent. One that does not fit into 32 bits gives the digits after the first
that does not fit. -/
def exponentValue (digits : List Char) : Nat ⊕ List Char :=
  match accumulate (UInt32.size / 2) 0 digits with
  | (n, []) => .inl n
  | (_, left) => .inr left.tail

/-- The value of the digits of a number. A number that is out of range gives the number of its
digits that need not be read to see it. -/
def Literal.value (l : Literal) : Except Nat Number :=
  let signed (f : Double) : Number := .real (if l.isNegative then -f else f)
  let (significand, exponent) := l.parts
  let scaledBy (exponent : Int) : Except Nat Number :=
    match scaled? significand exponent with
    | some f => .ok (signed f)
    | none => .error 0
  match l.exponent with
  | some (isNegative, digits) =>
    match exponentValue digits with
    | .inl n => scaledBy (if isNegative then exponent - n else exponent + n)
    | .inr unread =>
      if significand ≠ 0 ∧ ¬ isNegative then .error unread.length else .ok (signed 0)
  | none =>
    if ¬ l.isWhole ∨ 0 < exponent then scaledBy exponent
    else if ¬ l.isNegative then .ok (.integer significand)
    else if 0 < significand ∧ significand ≤ UInt64.size / 2 then .ok (.integer (-significand))
    else .ok (signed significand)

/-- What a number is called where something else was expected. -/
def Number.found : Number → Found
  | .integer n => .integer n
  | .real x => .real x

namespace Reader

/-- Read a number, of which the sign or the first digit comes next. -/
def number : Reader Number := do
  let l ← literal .endInValue
  match l.value with
  | .ok n => return n
  | .error unread => throw ⟨.outOfRange, (← get).index - unread⟩

/-- Pass a number, of any size. -/
def passNumber : Reader Unit := do
  let _ ← literal .badNumber

end Reader

/-! ## Writing -/

def decimalDigits (n : Nat) : List Char := Nat.toDigits 10 n

/-- The exponents of the first digit for which a number is written without an exponent. -/
def isPlain (leading : Int) : Bool := -5 ≤ leading ∧ leading ≤ 15

/-- A decimal without an exponent, with at least one digit before and after the point. -/
def plainText (d : Decimal) : List Char :=
  if 0 ≤ d.exponent then
    decimalDigits d.digits ++ List.replicate d.exponent.toNat '0' ++ ['.', '0']
  else
    let places := (-d.exponent).toNat
    let digits := decimalDigits d.digits
    let padded := List.replicate (places + 1 - digits.length) '0' ++ digits
    padded.take (padded.length - places) ++ '.' :: padded.drop (padded.length - places)

/-- A decimal with one digit before the point, and an exponent with its sign. -/
def exponentText (d : Decimal) : List Char :=
  let fraction := (decimalDigits d.digits).tail
  (decimalDigits d.digits).take 1 ++ (if fraction.isEmpty then [] else '.' :: fraction) ++
    ['e', if d.leading < 0 then '-' else '+'] ++ decimalDigits d.leading.natAbs

/-- A double as it is written. Values that are no numbers are written as `null`. -/
def writeReal (x : Double) : List Char :=
  if x.isNaN ∨ x.isInfinite then ['n', 'u', 'l', 'l']
  else
    let d := Decimal.shortest x
    let size := if isPlain d.leading then plainText d else exponentText d
    if x.isNegative then '-' :: size else size

end Json

end Patchbay
