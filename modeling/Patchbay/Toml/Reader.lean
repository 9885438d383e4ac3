import Patchbay.Text.Cursor

/-!
# Reading TOML text

A reader takes a value off the front of the text that is left, or refuses the text. A refusal has an
index, the number of bytes before what is refused, and is final or not: unless it is final, what
stands there may still be read as something else. Faults are reported by line and column.
-/

namespace Patchbay

namespace Toml

/-- Where a text is refused. -/
structure Fault where
  index : Nat
  /-- No other reading of the text is tried. -/
  isFinal : Bool
deriving DecidableEq

/-! ## Places -/

/-- The place after `index` more bytes of a text, if `chars` characters of the line `line` stand
before the text, which take up `bytes` bytes. A column is counted in bytes before a character of
several bytes, and in characters elsewhere. No line starts at the end of the text. -/
def placeFrom (line chars bytes index : Nat) : List Char → Text.Place
  | [] => ⟨line, chars + 1⟩
  | c :: rest =>
    if index < c.utf8Size then ⟨line, (if c.utf8Size = 1 then chars else bytes) + 1⟩
    else if c = '\n' ∧ ¬ rest.isEmpty then placeFrom (line + 1) 0 0 (index - 1) rest
    else placeFrom line (chars + 1) (bytes + c.utf8Size) (index - c.utf8Size) rest

/-- The place of the byte that has `index` bytes of a text before it. -/
def place (text : String) (index : Nat) : Text.Place := placeFrom 1 0 0 index text.toList

/-! ## Readers -/

/-- A computation that reads a `β`. -/
abbrev Reader (β : Type) := StateT Text.Cursor (Except Fault) β

namespace Reader

variable {β : Type}

def refuse : Reader β := do throw ⟨(← get).index, false⟩

/-- Refuse the text at an index, unless there is a value. -/
def need (index : Nat) : Option β → Reader β
  | some b => return b
  | none => do throw ⟨index, false⟩

/-- Read what nothing else can stand in place of: a refusal is final. -/
def commit (r : Reader β) : Reader β := fun c =>
  match r c with
  | .ok result => .ok result
  | .error fault => .error { fault with isFinal := true }

/-- Read something as a whole: unless a refusal is final, it is the front that is refused. -/
def whole (r : Reader β) : Reader β := fun c =>
  match r c with
  | .ok result => .ok result
  | .error fault => .error (if fault.isFinal then fault else { fault with index := c.index })

/-- Read something if it is there. Nothing is passed if it is refused, unless the refusal is
final. -/
def attempt (r : Reader β) : Reader (Option β) := fun c =>
  match r c with
  | .ok (b, after) => .ok (some b, after)
  | .error fault => if fault.isFinal then .error fault else .ok (none, c)

/-- Read one thing or else another. -/
def either (first second : Reader β) : Reader β := do
  match ← attempt first with
  | some b => return b
  | none => second

/-! ## Characters -/

def peek : Reader (Option Char) := return (← get).rest.head?

def advance : Reader Unit := modify Text.Cursor.advance

/-- Pass the characters of a word, which must come next. -/
def word (w : List Char) : Reader Unit := do
  if w.isPrefixOf (← get).rest then modify (·.drop w.length) else refuse

/-- Pass a character, which must come next. -/
def expect (c : Char) : Reader Unit := word [c]

/-- Pass a character if it comes next. -/
def accept (c : Char) : Reader Bool := do
  if (← peek) = some c then do
    advance
    return true
  else return false

/-- Pass all characters of a class, and give them. -/
def takeWhile (p : Char → Bool) : Reader (List Char) := do
  let c ← get
  set (c.dropWhile p)
  return c.rest.takeWhile p

/-! ## Blanks and lines -/

/-- Pass blanks within a line. -/
def blanks : Reader Unit := do
  let _ ← takeWhile fun c => c = ' ' ∨ c = '\t'

/-- A character that may stand in a comment or a string: no control character but the tab. -/
def isPrintable (c : Char) : Bool := c = '\t' ∨ (' ' ≤ c ∧ c ≠ '\x7f')

/-- Pass a comment, if one comes next. -/
def comment : Reader Unit := do
  if ← accept '#' then
    let _ ← takeWhile isPrintable

/-- Pass a line break, which must come next. A character in its place is passed before the text is
refused. -/
def newLine : Reader Unit := do
  match ← peek with
  | some '\n' => advance
  | some '\r' => do
    advance
    expect '\n'
  | _ => do
    advance
    refuse

/-- Pass a line break, if one comes next. -/
def lineBreak : Reader Bool := return (← attempt newLine).isSome

/-- Pass the rest of a line, on which nothing but a comment may stand. -/
def endOfLine : Reader Unit := do
  blanks
  comment
  unless ← lineBreak do
    unless (← get).rest.isEmpty do refuse

/-- Pass blanks and line breaks, of which there are at most the given number. -/
def breaks : Nat → Reader Unit
  | 0 => return ()
  | fuel + 1 => do
    blanks
    if ← lineBreak then breaks fuel

/-- Pass blanks, comments and line breaks, of which there are at most the given number. A comment
ends with its line. -/
def blankLines : Nat → Reader Unit
  | 0 => return ()
  | fuel + 1 => do
    blanks
    match ← peek with
    | some '#' => do
      comment
      newLine
      blankLines fuel
    | some '\n' | some '\r' => do
      newLine
      blankLines fuel
    | _ => return ()

/-- The most rounds that a loop over the rest of the text can take if each passes a character. -/
def rounds : Reader Nat := return (← get).rest.length + 1

end Reader

end Toml

end Patchbay
