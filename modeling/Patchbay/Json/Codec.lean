import Patchbay.Json.Doc
import Patchbay.Json.Skip

/-!
# Codecs

A codec says how the values of a type are read and written. There are codecs for strings, numbers
and lists, and for records, which are objects or, when they are read, lists of their fields in
order.

A record is read into a blank value, field by field. Fields that are not required may be absent, and
then keep what the blank value has. Each field may come once, and other fields are passed over.
-/

namespace Patchbay

namespace Json

/-- How the values of a type stand in a text. -/
structure Codec (β : Type) where
  read : Reader β
  write : β → Doc

/-! ## Values of another type -/

/-- Read a value of another type than the expected one, of which `c` is the first character. It is
named as far as its own grammar is right. -/
def Reader.mismatch {β : Type} (c : Char) (expected : String) : Reader β :=
  match c with
  | 'n' => do
    word ['n', 'u', 'l', 'l']
    failHere (.wrongType .null expected)
  | 't' => do
    word ['t', 'r', 'u', 'e']
    failHere (.wrongType (.boolean true) expected)
  | 'f' => do
    word ['f', 'a', 'l', 's', 'e']
    failHere (.wrongType (.boolean false) expected)
  | '"' => do
    let s ← quoted
    failHere (.wrongType (.text s) expected)
  | '[' => failHere (.wrongType .sequence expected)
  | '\x7b' => failHere (.wrongType .map expected)
  | c =>
    if c = '-' ∨ isDigit c then do
      let n ← number
      failHere (.wrongType n.found expected)
    else failNext .noValue

/-! ## Strings and numbers -/

namespace Codec

/-- A string. -/
def text : Codec String where
  read := do
    let c ← Reader.look .endInValue
    if c = '"' then Reader.quoted else Reader.mismatch c "a string"
  write s := .ofChars (writeText s)

/-- Read a number for which a type of numbers is expected. -/
def readNumber (expected : String) : Reader Number := do
  let c ← Reader.look .endInValue
  if c = '-' ∨ Reader.isDigit c then Reader.number else Reader.mismatch c expected

/-- Read a natural number below a limit. -/
def readNatural (limit : Nat) (expected : String) : Reader Nat := do
  match ← readNumber expected with
  | .integer n =>
    if 0 ≤ n ∧ n < limit then return n.toNat
    else Reader.failHere (.wrongValue (.integer n) expected)
  | .real x => Reader.failHere (.wrongType (.real x) expected)

/-- A natural number in 64 bits. -/
def count : Codec Nat where
  read := readNatural UInt64.size "usize"
  write n := .ofChars (decimalDigits n)

/-- A natural number in 32 bits. -/
def code : Codec UInt32 where
  read := return .ofNat (← readNatural UInt32.size "u32")
  write n := .ofChars (decimalDigits n.toNat)

/-- A double. It may be written as an integer. -/
def real : Codec Double where
  read := do
    match ← readNumber "f64" with
    | .integer n => return if n < 0 then -(n.natAbs : Double) else n.natAbs
    | .real x => return x
  write x := .ofChars (writeReal x)

/-! ## Lists -/

/-- Another element comes in a list. A comma must stand before it, unless it is the first. -/
def another (isFirst : Bool) : Reader Bool := do
  let c ← Reader.look .endInList
  if c = ']' then return false
  else if isFirst then return true
  else if c = ',' then do
    Reader.advance
    if (← Reader.look .endInValue) = ']' then Reader.failNext .trailingComma else return true
  else Reader.failNext .noCommaInList

/-- Read the elements of a list up to its closing bracket. -/
def elements {β : Type} (read : Reader β) : Nat → Bool → Reader (List β)
  | 0, _ => Reader.failHere .endInList
  | fuel + 1, isFirst => do
    if ← another isFirst then do
      let b ← read
      return b :: (← elements read fuel false)
    else do
      Reader.advance
      return []

/-- A list. -/
def listOf {β : Type} (item : Codec β) : Codec (List β) where
  read := do
    let c ← Reader.look .endInValue
    if c = '[' then do
      Reader.advance
      elements item.read (← Reader.rounds) true
    else Reader.mismatch c "a sequence"
  write bs := .list (bs.map item.write)

end Codec

/-! ## Records -/

/-- A field of a record. -/
structure Field (β : Type) where
  key : String
  isRequired : Bool
  /-- Read the field into a record. -/
  read : β → Reader β
  /-- Write the field of a record, if it is written. -/
  write : β → Option Doc

namespace Field

variable {β γ : Type}

/-- A field that must be there. -/
def required (key : String) (c : Codec γ) (get : β → γ) (put : β → γ → β) : Field β :=
  ⟨key, true, fun b => return put b (← c.read), fun b => some (c.write (get b))⟩

/-- A field that may be absent when it is read. -/
def defaulted (key : String) (c : Codec γ) (get : β → γ) (put : β → γ → β) : Field β :=
  { required key c get put with isRequired := false }

/-- Read a value that may be null. -/
def readNullable (c : Codec γ) : Reader (Option γ) := do
  if (← Reader.look .endInValue) = 'n' then do
    Reader.word ['n', 'u', 'l', 'l']
    return none
  else return some (← c.read)

/-- A field that may be absent or null, and is not written when there is no value. -/
def optional (key : String) (c : Codec γ) (get : β → Option γ) (put : β → Option γ → β) :
    Field β :=
  ⟨key, false, fun b => return put b (← readNullable c), fun b => (get b).map c.write⟩

end Field

/-- A type of records. -/
structure Format (β : Type) where
  name : String
  blank : β
  fields : List (Field β)

namespace Format

variable {β : Type}

/-- What is expected where a record stands. -/
def expected (f : Format β) : String := "struct " ++ f.name

/-- What is expected where a list of the fields is too short. -/
def expectedLength (f : Format β) : String :=
  f.expected ++ s!" with {f.fields.length} elements"

/-! ## Records as objects -/

/-- The key of the next field, if there is one. A comma must stand before it, unless it is the
first. -/
def nextKey (isFirst : Bool) : Reader (Option String) := do
  let c ← Reader.look .endInObject
  if c = '\x7d' then return none
  else if isFirst then
    if c = '"' then return some (← Reader.quoted) else Reader.failNext .keyNotText
  else if c = ',' then do
    Reader.advance
    let c ← Reader.look .endInValue
    if c = '"' then return some (← Reader.quoted)
    else if c = '\x7d' then Reader.failNext .trailingComma
    else Reader.failNext .keyNotText
  else Reader.failNext .noCommaInObject

/-- Stop because a field comes again. The fault lies before what follows its key, unless that is the
closing bracket. -/
def failDuplicate (key : String) : Reader β := do
  let _ ← Reader.takeWhile Reader.isBlank
  if (← get).rest.head? = some '\x7d' then Reader.advance
  Reader.failHere (.duplicateField key)

/-- Read fields up to the closing bracket of an object. The keys that have come are `seen`. -/
def members (f : Format β) : Nat → Bool → List String → β → Reader β
  | 0, _, _, _ => Reader.failHere .endInObject
  | fuel + 1, isFirst, seen, b => do
    match ← nextKey isFirst with
    | none => do
      Reader.advance
      match f.fields.find? fun x => x.isRequired ∧ x.key ∉ seen with
      | some x => Reader.failHere (.missingField x.key)
      | none => return b
    | some key =>
      match f.fields.find? (·.key = key) with
      | none => do
        Reader.colon
        Reader.passValue
        members f fuel false seen b
      | some x =>
        if key ∈ seen then failDuplicate key
        else do
          Reader.colon
          let b ← x.read b
          members f fuel false (key :: seen) b

/-! ## Records as lists -/

/-- Read the remaining fields from a list, of which `i` have come. -/
def positional (f : Format β) : Nat → List (Field β) → β → Reader β
  | _, [], b => return b
  | i, x :: fields, b => do
    if ← Codec.another (i = 0) then do
      let b ← x.read b
      positional f (i + 1) fields b
    else if x.isRequired then do
      Reader.advance
      Reader.failHere (.wrongLength i f.expectedLength)
    else positional f (i + 1) fields b

/-- The list of the fields of a record must close here. -/
def close : Reader Unit := do
  let c ← Reader.look .endInList
  if c = ']' then Reader.advance
  else if c = ',' then do
    Reader.advance
    let _ ← Reader.takeWhile Reader.isBlank
    if (← get).rest.head? = some ']' then Reader.failNext .trailingComma
    else Reader.failNext .trailingText
  else Reader.failNext .trailingText

/-! ## Records -/

/-- Read a record. -/
def read (f : Format β) : Reader β := do
  let c ← Reader.look .endInValue
  if c = '\x7b' then do
    Reader.advance
    members f (← Reader.rounds) true [] f.blank
  else if c = '[' then do
    Reader.advance
    let b ← positional f 0 f.fields f.blank
    close
    return b
  else Reader.mismatch c f.expected

def write (f : Format β) (b : β) : Doc :=
  .object (f.fields.filterMap fun x => (x.write b).map (x.key, ·))

def codec (f : Format β) : Codec β := ⟨f.read, f.write⟩

end Format

end Json

end Patchbay
