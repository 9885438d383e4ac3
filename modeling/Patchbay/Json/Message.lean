import Patchbay.Json.Number
import Patchbay.Text.Quoted

/-!
# Messages about JSON text

The sentences that faults in a text are reported in.
-/

namespace Patchbay

namespace Json

/-- What a value is called in a message. -/
def Found.message : Found → String
  | .null => "null"
  | .boolean value => s!"boolean `{value}`"
  | .integer value => s!"integer `{value}`"
  | .real value => "floating point `" ++ String.ofList (writeReal value) ++ "`"
  | .text value => "string " ++ Text.quote value
  | .map => "map"
  | .sequence => "sequence"

/-- The sentence that says what is wrong. -/
def Reason.message : Reason → String
  | .endInValue => "EOF while parsing a value"
  | .endInObject => "EOF while parsing an object"
  | .endInList => "EOF while parsing a list"
  | .endInText => "EOF while parsing a string"
  | .noValue => "expected value"
  | .noWord => "expected ident"
  | .noColon => "expected `:`"
  | .noCommaInList => "expected `,` or `]`"
  | .noCommaInObject => "expected `,` or `\x7d`"
  | .keyNotText => "key must be a string"
  | .trailingComma => "trailing comma"
  | .trailingText => "trailing characters"
  | .badNumber => "invalid number"
  | .outOfRange => "number out of range"
  | .badEscape => "invalid escape"
  | .brokenPair => "unexpected end of hex escape"
  | .lonePair => "lone leading surrogate in hex escape"
  | .controlCharacter => "control character (\\u0000-\\u001F) found while parsing a string"
  | .missingField key => "missing field `" ++ key ++ "`"
  | .duplicateField key => "duplicate field `" ++ key ++ "`"
  | .wrongType found expected => "invalid type: " ++ found.message ++ ", expected " ++ expected
  | .wrongValue found expected => "invalid value: " ++ found.message ++ ", expected " ++ expected
  | .wrongLength length expected => s!"invalid length {length}, expected " ++ expected

/-- The sentence that says what is wrong, and where. -/
def Reason.messageAt (reason : Reason) (place : Text.Place) : String :=
  reason.message ++ s!" at line {place.line} column {place.column}"

end Json

end Patchbay
