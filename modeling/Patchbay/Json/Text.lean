import Patchbay.Json.Reader
import Patchbay.Text.Hex

/-!
# Strings in JSON

A string stands between quotes. Quotes, backslashes and control characters in it are written as
escapes, and any character may be: by a letter, or by its UTF-16 units in hexadecimal digits.
-/

namespace Patchbay

namespace Json

/-! ## Escapes -/

/-- The character that a letter after a backslash stands for. -/
def unescape? : Char → Option Char
  | '"' => some '"'
  | '\\' => some '\\'
  | '/' => some '/'
  | 'b' => some '\x08'
  | 'f' => some '\x0c'
  | 'n' => some '\n'
  | 'r' => some '\r'
  | 't' => some '\t'
  | _ => none

/-- The letter that stands for a character after a backslash when strings are written. -/
def escapeLetter? : Char → Option Char
  | '"' => some '"'
  | '\\' => some '\\'
  | '\x08' => some 'b'
  | '\x0c' => some 'f'
  | '\n' => some 'n'
  | '\r' => some 'r'
  | '\t' => some 't'
  | _ => none

/-- A letter that is written for a character is read as that character. -/
theorem unescape?_of_escapeLetter? {c letter : Char} (h : escapeLetter? c = some letter) :
    unescape? letter = some c := by
  unfold escapeLetter? at h
  split at h <;> cases h <;> rfl

/-- The first unit of a pair of UTF-16 units. -/
def isLeading (unit : Nat) : Bool := 0xD800 ≤ unit ∧ unit < 0xDC00

/-- The second unit of a pair of UTF-16 units. -/
def isTrailing (unit : Nat) : Bool := 0xDC00 ≤ unit ∧ unit < 0xE000

/-! ## Writing -/

/-- A character as it is written in a string. -/
def writeChar (c : Char) : List Char :=
  match escapeLetter? c with
  | some letter => ['\\', letter]
  | none =>
    if c < ' ' then
      ['\\', 'u', '0', '0', Text.hexDigit (c.toNat / 16), Text.hexDigit (c.toNat % 16)]
    else [c]

def writeText (s : String) : List Char := '"' :: s.toList.flatMap writeChar ++ ['"']

namespace Reader

/-! ## Reading -/

/-- Read a UTF-16 unit in four hexadecimal digits. It is the next four bytes that must be digits. -/
def unit : Reader Nat := do
  let c ← get
  match c.rest with
  | a :: b :: x :: y :: _ =>
    match Text.hexValue? a, Text.hexValue? b, Text.hexValue? x, Text.hexValue? y with
    | some a, some b, some x, some y =>
      set (c.drop 4)
      return ((a * 16 + b) * 16 + x) * 16 + y
    | _, _, _, _ => throw ⟨.badEscape, c.index + 4⟩
  | few =>
    if Text.byteCount few < 4 then throw ⟨.endInText, c.index + Text.byteCount few⟩
    else throw ⟨.badEscape, c.index + 4⟩

/-- Pass a character that the second unit of a pair needs before it. -/
def needForPair (needed : Char) : Reader Unit := do
  match (← get).rest with
  | [] => failHere .endInText
  | c :: _ => if c = needed then advance else failNext .brokenPair

/-- Read the units of a character. Those of a pair must come together. -/
def unitEscape : Reader Char := do
  let first ← unit
  if isTrailing first then failHere .lonePair
  else if isLeading first then do
    needForPair '\\'
    needForPair 'u'
    let second ← unit
    if isTrailing second then
      return Char.ofNat (0x10000 + (first - 0xD800) * 0x400 + (second - 0xDC00))
    else failHere .lonePair
  else return Char.ofNat first

/-- Read what follows a backslash. -/
def escape : Reader Char := do
  match (← get).rest with
  | [] => failHere .endInText
  | 'u' :: _ => do
    advance
    unitEscape
  | c :: _ =>
    match unescape? c with
    | some x => do
      advance
      return x
    | none => failNext .badEscape

/-- Read the characters of a string up to its closing quote. -/
def textBody : Nat → Reader (List Char)
  | 0 => failHere .endInText
  | fuel + 1 => do
    match (← get).rest with
    | [] => failHere .endInText
    | '"' :: _ => do
      advance
      return []
    | '\\' :: _ => do
      advance
      let c ← escape
      return c :: (← textBody fuel)
    | c :: _ =>
      if c < ' ' then failNext .controlCharacter
      else do
        advance
        return c :: (← textBody fuel)

/-- Read a string, of which the opening quote comes next. -/
def quoted : Reader String := do
  advance
  return String.ofList (← textBody (← rounds))

/-! ## Passing -/

/-- Pass what follows a backslash. Units need not form pairs. -/
def passEscape : Reader Unit := do
  match (← get).rest with
  | [] => failHere .endInText
  | 'u' :: _ => do
    advance
    let _ ← unit
  | c :: _ => if (unescape? c).isSome then advance else failNext .badEscape

/-- Pass the characters of a string up to its closing quote. A control character is reported before
itself here. -/
def passTextBody : Nat → Reader Unit
  | 0 => failHere .endInText
  | fuel + 1 => do
    match (← get).rest with
    | [] => failHere .endInText
    | '"' :: _ => advance
    | '\\' :: _ => do
      advance
      passEscape
      passTextBody fuel
    | c :: _ =>
      if c < ' ' then failHere .controlCharacter
      else do
        advance
        passTextBody fuel

/-- The number of characters before the closing quote of a string. A quote after a backslash does not
close it. -/
def lengthOfText : List Char → Nat
  | [] => 0
  | '"' :: _ => 0
  | '\\' :: _ :: rest => lengthOfText rest + 2
  | _ :: rest => lengthOfText rest + 1

/-- Pass a string, of which the opening quote comes next. -/
def passText : Reader Unit := do
  advance
  passTextBody (lengthOfText (← get).rest + 1)

end Reader

end Json

end Patchbay
