import Patchbay.Json.Number
import Patchbay.Json.Text

/-!
# Laid out JSON text

JSON text with one element or field to a line, two blanks deeper than the brackets around it. A
value is laid out for the depth at which it stands.
-/

namespace Patchbay

namespace Json

/-- The text of a value at a depth of indentation. -/
abbrev Doc := Nat → List Char

namespace Doc

/-- A value that stands on one line. -/
def ofChars (cs : List Char) : Doc := fun _ => cs

def newline (depth : Nat) : List Char := '\n' :: List.replicate (2 * depth) ' '

/-- Parts between brackets, one to a line, with commas between them. -/
def bracketed (opening closing : Char) (parts : List Doc) : Doc := fun depth =>
  match parts with
  | [] => [opening, closing]
  | _ => opening :: [','].intercalate (parts.map fun p => newline (depth + 1) ++ p (depth + 1)) ++
    newline depth ++ [closing]

def list (items : List Doc) : Doc := bracketed '[' ']' items

def field (key : String) (value : Doc) : Doc := fun depth =>
  writeText key ++ ':' :: ' ' :: value depth

def object (fields : List (String × Doc)) : Doc :=
  bracketed '\x7b' '\x7d' (fields.map fun (key, value) => field key value)

end Doc

end Json

end Patchbay
