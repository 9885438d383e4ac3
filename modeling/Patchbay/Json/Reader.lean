import Patchbay.Json.Fault

/-!
# Reading JSON text

A reader takes a value off the front of the text that is left, or stops at the first fault. It
counts the bytes that it has passed, so that faults can be located.
-/

namespace Patchbay

namespace Json

/-- A computation that reads a `β`. -/
abbrev Reader (β : Type) := StateT Text.Cursor (Except Fault) β

namespace Reader

variable {β : Type}

/-! ## Faults -/

/-- Stop after what has been read. -/
def failHere (reason : Reason) : Reader β := do throw ⟨reason, (← get).index⟩

/-- Stop at the byte that comes next, or at the end of the text. -/
def failNext (reason : Reason) : Reader β := do
  let c ← get
  throw ⟨reason, if c.rest.isEmpty then c.index else c.index + 1⟩

/-! ## Characters -/

def advance : Reader Unit := modify Text.Cursor.advance

/-- The characters that may stand between values. -/
def isBlank (c : Char) : Bool := c = ' ' ∨ c = '\n' ∨ c = '\t' ∨ c = '\r'

def isDigit (c : Char) : Bool := '0' ≤ c ∧ c ≤ '9'

/-- Pass all characters of a class, and give them. -/
def takeWhile (p : Char → Bool) : Reader (List Char) := do
  let c ← get
  set (c.dropWhile p)
  return c.rest.takeWhile p

/-- The next character after blanks, which is not passed. The text must not end here. -/
def look (atEnd : Reason) : Reader Char := do
  let _ ← takeWhile isBlank
  match (← get).rest with
  | c :: _ => return c
  | [] => failHere atEnd

/-- Pass the letters of a word. -/
def word : List Char → Reader Unit
  | [] => return ()
  | letter :: letters => do
    match (← get).rest with
    | [] => failHere .endInValue
    | c :: _ =>
      if c = letter then do
        advance
        word letters
      else failNext .noWord

def colon : Reader Unit := do
  if (← look .endInObject) = ':' then advance else failNext .noColon

/-- Nothing but blanks may follow. -/
def finish : Reader Unit := do
  let _ ← takeWhile isBlank
  match (← get).rest with
  | [] => return ()
  | _ => failNext .trailingText

/-- The most rounds that a loop over the rest of the text can take if each passes a character. -/
def rounds : Reader Nat := return (← get).rest.length + 1

def readAll (r : Reader β) (text : String) : Except Fault β := do
  let (b, _) ← (do let b ← r; finish; return b : Reader β).run (.start text)
  return b

end Reader

end Json

end Patchbay
