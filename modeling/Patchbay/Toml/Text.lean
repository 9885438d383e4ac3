import Patchbay.Text.Hex
import Patchbay.Toml.Value
import Patchbay.Toml.Reader

/-!
# Strings and keys in TOML

Strings stand between double quotes, with escapes, or between single quotes, without. Between three
quotes they may run over several lines. A key is a string on one line or a word of letters, digits,
dashes and underscores, and keys are joined by dots. Once a string has begun, nothing else can be
read in its place.
-/

namespace Patchbay

namespace Toml

namespace Reader

/-! ## Escapes -/

/-- The character that a letter after a backslash stands for. -/
def unescape? : Char → Option Char
  | '"' => some '"'
  | '\\' => some '\\'
  | 'b' => some '\x08'
  | 'f' => some '\x0c'
  | 'n' => some '\n'
  | 'r' => some '\r'
  | 't' => some '\t'
  | _ => none

/-- The number of hexadecimal digits that follow a letter after a backslash. -/
def digitCount? : Char → Option Nat
  | 'u' => some 4
  | 'U' => some 8
  | _ => none

/-- The character of a number in hexadecimal digits. -/
def numbered? (count : Nat) (digits : List Char) : Option Char := do
  let values := digits.filterMap Text.hexValue?
  let code := values.foldl (fun n d => 16 * n + d) 0
  if values.length = count ∧ (code < 0xD800 ∨ (0xDFFF < code ∧ code < 0x110000)) then
    some (Char.ofNat code)
  else none

/-- Read an escape, of which the backslash comes next. -/
def escape : Reader Char := do
  match (← get).rest.drop 1 with
  | [] => refuse
  | letter :: rest => commit do
    advance
    match unescape? letter, digitCount? letter with
    | some c, _ => do
      advance
      return c
    | none, some count => do
      advance
      let c ← need (← get).index (numbered? count (rest.take count))
      modify (·.drop count)
      return c
    | none, none => do
      if letter.utf8Size = 1 then advance
      refuse

/-- Pass a backslash at the end of a line, with all blanks and line breaks after it. -/
def joint : Reader Unit := do
  expect '\\'
  blanks
  newLine
  breaks (← rounds)

/-! ## Strings -/

/-- Read a string on one line up to its closing quote. -/
def lineBody (quote : Char) : Nat → Reader (List Char)
  | 0 => refuse
  | fuel + 1 => do
    match ← peek with
    | none => refuse
    | some c =>
      if c = quote then do
        advance
        return []
      else if c = '\\' ∧ quote = '"' then do
        let x ← escape
        return x :: (← lineBody quote fuel)
      else if isPrintable c then do
        advance
        return c :: (← lineBody quote fuel)
      else refuse

/-- Read a piece of a string over several lines: a character, an escape or a line break. -/
def piece (quote : Char) : Reader (List Char) := do
  if ← lineBreak then return ['\n']
  else
    match ← peek with
    | none => refuse
    | some c =>
      if c = '\\' ∧ quote = '"' then
        either (do joint; return []) (do return [← escape])
      else if isPrintable c then do
        advance
        return [c]
      else refuse

/-- Read one or two quotes, or none, and the piece of a string that follows them. Quotes before the
end of the text are refused themselves, and so are single quotes before what cannot stand in a
string. -/
def quotesAndPiece (quote : Char) (count : Nat) : Reader (List Char) := do
  let all : Reader (List Char) := do
    modify (·.drop count)
    return List.replicate count quote ++ (← piece quote)
  if quote = '"' ∧ ¬ ((← get).rest.drop count).isEmpty then all else whole all

/-- Read a string over several lines up to its closing quotes, of which there are three. Up to two
more before them belong to the string. -/
def linesBody (quote : Char) : Nat → Reader (List Char)
  | 0 => refuse
  | fuel + 1 => do
    let count := ((← get).rest.takeWhile (· = quote)).length
    if 3 ≤ count then do
      modify (·.drop (min count 5))
      return List.replicate (min count 5 - 3) quote
    else do
      let cs ← quotesAndPiece quote count
      return cs ++ (← linesBody quote fuel)

/-- Read a string on one line, of which the opening quote comes next. -/
def lineText (quote : Char) : Reader String := do
  expect quote
  return String.ofList (← commit (lineBody quote (← rounds)))

/-- Read a string, of which the opening quotes come next. A line break right after three quotes does
not belong to it. -/
def text (quote : Char) : Reader String := do
  match ← attempt (word [quote, quote, quote]) with
  | some () => do
    let _ ← lineBreak
    return String.ofList (← commit (linesBody quote (← rounds)))
  | none => lineText quote

/-! ## Keys -/

/-- A character of a key without quotes. -/
def isKeyChar (c : Char) : Bool := c.isAlphanum ∨ c = '-' ∨ c = '_'

/-- Read the name of a key. -/
def name : Reader String := do
  match ← peek with
  | some '"' => lineText '"'
  | some '\'' => lineText '\''
  | _ => do
    let cs ← takeWhile isKeyChar
    if cs.isEmpty then refuse else return String.ofList cs

/-- Read a key with the blanks around it. -/
def key : Reader Key := do
  blanks
  let index := (← get).index
  let name ← name
  blanks
  return ⟨index, name⟩

/-- Read keys that are joined to those before them by dots. -/
def moreKeys : Nat → Reader (List Key)
  | 0 => return []
  | fuel + 1 => do
    match ← attempt (do expect '.'; key) with
    | some k => return k :: (← moreKeys fuel)
    | none => return []

def maxKeys : Nat := 79

/-- Read keys that are joined by dots. -/
def path : Reader (List Key) := do
  let index := (← get).index
  let first ← key
  let keys := first :: (← moreKeys (← rounds))
  need index (if keys.length ≤ maxKeys then some keys else none)

end Reader

end Toml

end Patchbay
