import Patchbay.Json.Number
import Patchbay.Json.Text

/-!
# Passing over values

Values of fields that mean nothing are passed over, whatever they are. Only their grammar is
checked, and they may be nested to any depth. The brackets that are open are kept in a list,
innermost first.
-/

namespace Patchbay

namespace Json

/-- A bracket that holds values. -/
inductive Bracket
  | list
  | object
deriving DecidableEq

namespace Bracket

/-- The bracket that a character opens. -/
def ofChar? : Char → Option Bracket
  | '[' => some list
  | '\x7b' => some object
  | _ => none

def closing : Bracket → Char
  | list => ']'
  | object => '\x7d'

/-- The fault if the text ends between values. -/
def atEnd : Bracket → Reason
  | list => .endInList
  | object => .endInObject

/-- The fault if something else than a comma follows a value. -/
def noComma : Bracket → Reason
  | list => .noCommaInList
  | object => .noCommaInObject

end Bracket

namespace Reader

/-- Pass the key that stands before a value in an object. -/
def passKey : Bracket → Reader Unit
  | .list => return ()
  | .object => do
    if (← look .endInObject) = '"' then do
      passText
      colon
    else failNext .keyNotText

/-- Pass the end of a value inside brackets, which may end the brackets as well. What remains is
open, and a value follows. -/
def passEnd : List Bracket → Reader (List Bracket)
  | [] => return []
  | b :: outer => do
    let c ← look b.atEnd
    if c = ',' then do
      advance
      passKey b
      return b :: outer
    else if c = b.closing then do
      advance
      passEnd outer
    else failNext b.noComma

/-- Pass the start of a bracket. -/
def passOpening (b : Bracket) (outer : List Bracket) : Reader (List Bracket) := do
  advance
  if (← look b.atEnd) = b.closing then do
    advance
    passEnd outer
  else do
    passKey b
    return b :: outer

/-- Pass a value without brackets, of which `c` is the first character. -/
def passScalar (c : Char) : Reader Unit :=
  match c with
  | 'n' => word ['n', 'u', 'l', 'l']
  | 't' => word ['t', 'r', 'u', 'e']
  | 'f' => word ['f', 'a', 'l', 's', 'e']
  | '"' => passText
  | c => if c = '-' ∨ isDigit c then passNumber else failNext .noValue

/-- Pass values until no bracket is open. -/
def passValues : Nat → List Bracket → Reader Unit
  | 0, _ => failHere .endInValue
  | fuel + 1, outer => do
    let c ← look .endInValue
    let remaining ← match Bracket.ofChar? c with
      | some b => passOpening b outer
      | none => do
        passScalar c
        passEnd outer
    if remaining.isEmpty then return () else passValues fuel remaining

/-- Pass a value of any kind. -/
def passValue : Reader Unit := do passValues (← rounds) []

end Reader

end Json

end Patchbay
