import Patchbay.Decimal.Shortest
import Patchbay.Text.Cursor

/-!
# Faults in JSON text

What can be wrong with a JSON text that is read for values of known types, and where. A fault lies
at the number of bytes that stand before it. Its place is reported as a line, counted by line feeds
from one, and the number of bytes of that line.
-/

namespace Patchbay

namespace Json

/-- What stands where a value of another type was expected. -/
inductive Found
  | null
  | boolean (value : Bool)
  | integer (value : Int)
  | real (value : Double)
  | text (value : String)
  | map
  | sequence
deriving DecidableEq

/-- What is wrong with a text. -/
inductive Reason
  | endInValue
  | endInObject
  | endInList
  | endInText
  | noValue
  | noWord
  | noColon
  | noCommaInList
  | noCommaInObject
  | keyNotText
  | trailingComma
  | trailingText
  | badNumber
  | outOfRange
  | badEscape
  | brokenPair
  | lonePair
  | controlCharacter
  | missingField (key : String)
  | duplicateField (key : String)
  | wrongType (found : Found) (expected : String)
  | wrongValue (found : Found) (expected : String)
  | wrongLength (length : Nat) (expected : String)
deriving DecidableEq

/-- The kinds of faults: the text ends too early, it is no JSON, or it is JSON for something
else. -/
inductive Category
  | atEnd
  | grammar
  | content
deriving DecidableEq

/-- The kind of a fault. -/
def Reason.category : Reason → Category
  | .endInValue | .endInObject | .endInList | .endInText => .atEnd
  | .missingField _ | .duplicateField _ | .wrongType .. | .wrongValue .. | .wrongLength .. =>
    .content
  | _ => .grammar

/-- A fault, and the number of bytes before it. -/
structure Fault where
  reason : Reason
  index : Nat
deriving DecidableEq

/-! ## Places -/

/-- The place after `index` more bytes of a text, if the text starts at `place`. Columns count the
bytes of a line before the place. -/
def placeAfter (place : Text.Place) (index : Nat) : List Char → Text.Place
  | [] => { place with column := place.column + index }
  | c :: text =>
    if index < c.utf8Size then { place with column := place.column + index }
    else if c = '\n' then placeAfter ⟨place.line + 1, 0⟩ (index - c.utf8Size) text
    else placeAfter ⟨place.line, place.column + c.utf8Size⟩ (index - c.utf8Size) text

def Fault.place (f : Fault) (text : String) : Text.Place := placeAfter ⟨1, 0⟩ f.index text.toList

end Json

end Patchbay
