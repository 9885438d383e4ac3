import Patchbay.Load

/-!
# Reports

What is told about an error when a text cannot be loaded. A fault in the JSON text is shown with its
title and its location. Its place, a line and a number of bytes, is turned into the number of bytes
before it, and the report is drawn at the character of that number. Lines of a report end where a
reader sees them end, which includes other characters than the line feed.
-/

namespace Patchbay

namespace Report

/-! ## Offsets -/

/-- The number of bytes of a text before the line after `n` line feeds. -/
def bytesBefore : Nat → List Char → Nat
  | 0, _ => 0
  | _, [] => 0
  | n + 1, c :: text => c.utf8Size + bytesBefore (if c = '\n' then n else n + 1) text

/-- The number of bytes before a place, but at most those of the text. -/
def byteOffset (text : String) (place : Text.Place) : Nat :=
  min (bytesBefore (place.line - 1) text.toList + (place.column - 1)) text.utf8ByteSize

/-! ## Locations -/

def endsLine (c : Char) : Bool :=
  c ∈ ['\n', '\r', '\x0b', '\x0c', '\u0085', '\u2028', '\u2029']

/-- The place, in characters counted from one, that lies `offset` characters after the front of a
text which starts at a given place. A carriage return and a line feed end one line, and no line
starts at the end of the text. -/
def locate (line column : Nat) : Nat → List Char → Text.Place
  | 0, _ => ⟨line, column⟩
  | _, [] => ⟨line, column⟩
  | offset + 1, c :: text =>
    if endsLine c ∧ ¬ (c = '\r' ∧ text.head? = some '\n') ∧ ¬ text.isEmpty then
      locate (line + 1) 1 offset text
    else locate line (column + 1) offset text

/-- The place of a report that is drawn at the character `offset` of a text, if the text has it. -/
def location? (text : String) (offset : Nat) : Option Text.Place :=
  if text.isEmpty ∨ text.length < offset then none else some (locate 1 1 offset text.toList)

end Report

/-- What is told about an error. -/
inductive Report
  /-- One sentence. -/
  | plain (message : String)
  /-- A fault in a text: its title, its location, and the sentence about it. -/
  | located (title : String) (location : Option String) (message : String)
deriving DecidableEq

namespace Report

def faultTitle : String := "Error: invalid pipeline JSON"

/-- What is told about an error, if the text comes from the file of a name. -/
def ofError (text fileName : String) (e : LoadError) : Report :=
  match e with
  | .malformed _ place =>
    let shown (p : Text.Place) : String := fileName ++ s!":{p.line}:{p.column}"
    .located faultTitle ((location? text (byteOffset text place)).map shown) e.message
  | _ => .plain e.message

def firstLine : Report → String
  | .plain message => message
  | .located title _ _ => title

def lines : Report → List String
  | .plain message => [message]
  | .located title location message => title :: location.toList ++ [message]

end Report

end Patchbay
