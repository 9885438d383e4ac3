import Patchbay.Decimal.Nearest
import Patchbay.Text.Hex
import Patchbay.Toml.Reader
import Patchbay.Toml.Value

/-!
# Numbers in TOML

Integers are decimal, with a sign if one likes, or hexadecimal, octal or binary after a marker, and
lie in 64 bits with a sign. Other numbers have a fraction or an exponent, or are infinite or
undefined by name, and are read as the nearest double. Between two digits an underscore may stand.
-/

namespace Patchbay

namespace Toml

namespace Reader

/-! ## Digits -/

/-- Read a digit in bases up to sixteen. -/
def digit (base : Nat) : Reader Nat := do
  match (← peek).bind Text.hexValue? with
  | some d =>
    if d < base then do
      advance
      return d
    else refuse
  | none => refuse

/-- Read the digits after the first. An underscore must have a digit after it. -/
def moreDigits (base : Nat) : Nat → Reader (List Nat)
  | 0 => return []
  | fuel + 1 => do
    let joined ← accept '_'
    match ← attempt (if joined then commit (digit base) else digit base) with
    | some d => return d :: (← moreDigits base fuel)
    | none => return []

def digits (base : Nat) : Reader (List Nat) := do
  let first ← digit base
  return first :: (← moreDigits base (← rounds))

def ofDigits (base : Nat) (ds : List Nat) : Nat := ds.foldl (fun n d => base * n + d) 0

/-- Read the sign of a number: it is negative. -/
def sign : Reader Bool := do
  if ← accept '-' then return true
  else do
    let _ ← accept '+'
    return false

/-- Read the digits before the point. A zero comes alone. -/
def wholeDigits : Reader (List Nat) := do
  if ← accept '0' then return [0] else digits 10

/-! ## Integers -/

/-- The base of the digits after a marker. -/
def base? : List Char → Option Nat
  | ['0', 'x'] => some 16
  | ['0', 'o'] => some 8
  | ['0', 'b'] => some 2
  | _ => none

/-- Read an integer that may be too large. -/
def unbounded : Reader Int := do
  match base? ((← get).rest.take 2) with
  | some base => do
    modify (·.drop 2)
    return ofDigits base (← commit (digits base))
  | none => do
    let isNegative ← sign
    let n := ofDigits 10 (← wholeDigits)
    return if isNegative then -n else n

/-- Read an integer in 64 bits with a sign. -/
def integer : Reader Value := do
  let index := (← get).index
  let n ← unbounded
  let limit : Nat := UInt64.size / 2
  if -(limit : Int) ≤ n ∧ n < limit then return .integer n
  else commit (need index none)

/-! ## Other numbers -/

/-- Read the digits after the point. -/
def fraction : Reader (List Nat) := do
  expect '.'
  commit (digits 10)

/-- Read an exponent. -/
def exponent : Reader Int := do
  let c ← peek
  if c = some 'e' ∨ c = some 'E' then do
    advance
    let isNegative ← sign
    let n := ofDigits 10 (← commit (digits 10))
    return if isNegative then -n else n
  else refuse

/-- Read what follows the digits before the point: an exponent, or the digits after the point and
then perhaps an exponent. -/
def fractionAndExponent : Reader (List Nat × Int) := do
  match ← attempt exponent with
  | some e => return ([], e)
  | none => do
    let places ← fraction
    return (places, (← attempt exponent).getD 0)

/-- Read a number with a fraction or an exponent. A positive number must be finite. -/
def decimal : Reader Value := do
  let index := (← get).index
  let isNegative ← sign
  let whole ← wholeDigits
  let (places, e) ← fractionAndExponent
  let x := Decimal.nearest ⟨ofDigits 10 (whole ++ places), e - places.length⟩
  if isNegative then return .real (-x)
  else if x.isInfinite then commit (need index none)
  else return .real x

/-- Read the name of infinity or of what is no number. -/
def named : Reader Value := do
  let isNegative ← sign
  let x ← either (do word ['i', 'n', 'f']; return Double.infinity)
    (do word ['n', 'a', 'n']; return Double.nan)
  return .real (if isNegative then -x else x)

def number : Reader Value := either decimal (either named integer)

end Reader

end Toml

end Patchbay
