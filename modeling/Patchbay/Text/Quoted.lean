import Patchbay.Text.Visible

/-!
# Quoted text

A text as it is shown in messages: between quotes, and with escapes for what would not show.
-/

namespace Patchbay

namespace Text

/-- The letter that stands for a character after a backslash. -/
def quoteLetter? : Char → Option Char
  | '\x00' => some '0'
  | '\t' => some 't'
  | '\n' => some 'n'
  | '\r' => some 'r'
  | '"' => some '"'
  | '\\' => some '\\'
  | _ => none

/-- A character of a quoted text. One that does not show is given by its number. -/
def quoteChar (c : Char) : List Char :=
  match quoteLetter? c with
  | some letter => ['\\', letter]
  | none =>
    if shows c then [c]
    else ['\\', 'u', '\x7b'] ++ Nat.toDigits 16 c.toNat ++ ['\x7d']

/-- A text between quotes, as it is shown in messages. -/
def quote (s : String) : String := String.ofList ('"' :: s.toList.flatMap quoteChar ++ ['"'])

end Text

end Patchbay
