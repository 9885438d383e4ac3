/-!
# Controls

A terminal obeys control characters, and sequences of characters that an escape character starts.
A text that comes from outside is shown without them. A sequence with a bracket runs to its first
letter, and the strings that some letters start run to a closing character. Line breaks, tabs and
other blanks are no controls here: inside a sequence they are shown, and so is what follows them, up
to the next control character.
-/

namespace Patchbay

namespace Text

/-- Where a text stands in a control sequence. -/
inductive Sequence
  /-- In no sequence. -/
  | plain
  /-- After an escape character. -/
  | escape
  /-- After an escape character and signs. -/
  | signs
  /-- In a sequence with a bracket. -/
  | bracket
  /-- In a string with parameters, before them, among them, or among the signs after them. -/
  | start
  | parameters
  | parameterSigns
  /-- In the body of a string. -/
  | body
  /-- In the body of a command to the system, which a bell closes. -/
  | command
deriving DecidableEq

namespace Sequence

def within (first last c : Char) : Bool := first ≤ c ∧ c ≤ last

/-- Where a text stands after a character of one byte. -/
def afterAscii (s : Sequence) (c : Char) : Sequence :=
  if c = '\x18' ∨ c = '\x1a' then plain
  else if c = '\x1b' then escape
  else if c = '\x07' ∧ s = command then plain
  else if ¬ within ' ' '~' c then s
  else
    match s with
    | plain => plain
    | escape =>
      if within ' ' '/' c then signs
      else if c = '[' then bracket
      else if c = ']' then command
      else if c = 'P' then start
      else if c = 'X' ∨ c = '^' ∨ c = '_' then body
      else plain
    | signs => if within ' ' '/' c then signs else plain
    | bracket => if within ' ' '?' c then bracket else plain
    | start =>
      if within ' ' '/' c then parameterSigns
      else if within '0' '?' c then parameters
      else body
    | parameters =>
      if within ' ' '/' c then parameterSigns
      else if within '0' ';' c then parameters
      else body
    | parameterSigns => if within ' ' '/' c then parameterSigns else body
    | body => body
    | command => command

/-- Where a text stands after a character. One byte of a character of several may close a string. -/
def after (s : Sequence) (c : Char) : Sequence :=
  if c.toNat < 0x80 then s.afterAscii c
  else if s = body ∧ (String.utf8EncodeChar c).contains 0x9c then plain
  else s

/-- The sequence may hold blanks that are shown. -/
def showsBlanks : Sequence → Bool
  | plain | escape | signs | bracket => true
  | _ => false

end Sequence

/-- A blank that is no control. -/
def isBlankControl (c : Char) : Bool := c ∈ ['\t', '\n', '\x0c', '\r']

/-- A character that is shown outside of sequences. -/
def isPlain (c : Char) : Bool :=
  isBlankControl c ∨ (' ' ≤ c ∧ c ≠ '\x7f')

/-- The characters of a text that are shown, if the text stands somewhere in a sequence, and
characters are being shown or not. -/
def plainCharacters : Sequence → Bool → List Char → List Char
  | _, _, [] => []
  | s, isShowing, c :: rest =>
    let isShown := if isShowing ∨ s = .plain then isPlain c
      else isBlankControl c && s.showsBlanks
    let next := if isShown then (if 0x80 ≤ c.toNat then .plain else s) else s.after c
    if isShown then c :: plainCharacters next true rest else plainCharacters next false rest

def withoutControls (s : String) : String := String.ofList (plainCharacters .plain false s.toList)

end Text

end Patchbay
