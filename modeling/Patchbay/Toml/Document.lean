import Patchbay.Toml.Number
import Patchbay.Toml.Text

/-!
# Documents in TOML

A document is a table. Its lines give the values of keys, or the header of the table that the
following lines belong to. Brackets and braces may be nested to a limited depth.
-/

namespace Patchbay

namespace Toml

namespace Reader

/-! ## Values -/

/-- Read a value without brackets. Brackets that come next are nested too deep. -/
def scalar : Reader Value := do
  match ← peek with
  | some '[' | some '\x7b' => commit refuse
  | some '"' => return .text (← text '"')
  | some '\'' => return .text (← text '\'')
  | some 't' => do
    commit (word ['t', 'r', 'u', 'e'])
    return .boolean true
  | some 'f' => do
    commit (word ['f', 'a', 'l', 's', 'e'])
    return .boolean false
  | some 'i' | some 'n' => named
  | some c =>
    if c = '+' ∨ c = '-' ∨ c.isDigit then either (do return .moment (← moment)) number else refuse
  | none => refuse

/-- Read a value of an array, with the blanks and lines around it. -/
def item (value : Reader (Placed Value)) : Reader (Placed Value) := do
  blankLines (← rounds)
  let v ← value
  blankLines (← rounds)
  return v

/-- Read the values of an array. A comma may follow the last. -/
def items (value : Reader (Placed Value)) : Nat → Reader (List (Placed Value))
  | 0 => return []
  | fuel + 1 => do
    match ← attempt (item value) with
    | none => return []
    | some v => if ← accept ',' then return v :: (← items value fuel) else return [v]

/-- Read an array, of which the bracket comes next. -/
def array (value : Reader (Placed Value)) : Reader Value := do
  expect '['
  let vs ← items value (← rounds)
  commit do
    blankLines (← rounds)
    expect ']'
  return .array vs

/-- Read a value after its key and an equals sign. -/
def assigned (value : Reader (Placed Value)) : Reader (Placed Value) := commit do
  expect '='
  blanks
  let v ← value
  blanks
  return v

/-- Read a key with its value between braces. -/
def pair (value : Reader (Placed Value)) : Reader (List Key × Placed Value) := do
  let keys ← path
  return (keys, ← assigned value)

/-- Read keys with their values that follow others after a comma. -/
def morePairs (value : Reader (Placed Value)) : Nat → Reader (List (List Key × Placed Value))
  | 0 => return []
  | fuel + 1 => do
    match ← attempt (do expect ','; pair value) with
    | some p => return p :: (← morePairs value fuel)
    | none => return []

/-- Read keys with their values. -/
def pairs (value : Reader (Placed Value)) : Reader (List (List Key × Placed Value)) := do
  match ← attempt (pair value) with
  | some p => return p :: (← morePairs value (← rounds))
  | none => return []

/-- Read a table between braces, of which the brace comes next. -/
def braces (value : Reader (Placed Value)) : Reader Value := do
  expect '\x7b'
  let index := (← get).index
  let ps ← pairs value
  blanks
  commit do
    let t ← need index (ps.foldlM (fun t (keys, v) => t.addDotted? v keys) (Table.blank .inline))
    expect '\x7d'
    return t.toValue

/-- Read a value in which brackets and braces are nested to at most a depth. -/
def value : Nat → Reader (Placed Value)
  | 0 => do return ⟨(← get).index, ← scalar⟩
  | depth + 1 => do
    let index := (← get).index
    match ← peek with
    | some '[' => return ⟨index, ← array (value depth)⟩
    | some '\x7b' => return ⟨index, ← braces (value depth)⟩
    | _ => return ⟨index, ← scalar⟩

/-- The depth to which brackets and braces may be nested. -/
def maxDepth : Nat := 79

/-! ## Lines -/

/-- A document in the making: all its tables, and the path of the headers that lead to the table
which the next line belongs to. -/
structure Draft where
  root : Table
  headers : List Key

/-- Read the header of a table, of which the bracket comes next. -/
def header (d : Draft) : Reader Draft := do
  let c ← get
  if (c.rest.drop 1).isEmpty then refuse
  advance
  let isNext ← accept '['
  let keys ← path
  word (if isNext then [']', ']'] else [']'])
  endOfLine
  let parents := keys.dropLast
  let root ← need c.index do
    let key ← keys.getLast?
    if isNext then d.root.openNext? c.index parents key
    else d.root.openTable? c.index parents key
  return ⟨root, keys⟩

/-- Read a key with its value, which takes a line or more. -/
def entry (d : Draft) : Reader Draft := do
  let index := (← get).index
  let keys ← path
  let v ← assigned (value maxDepth)
  endOfLine
  let root ← need index (d.root.underHeaders? (·.addDotted? v keys) d.headers)
  return { d with root }

/-- Read lines to the end of the text. -/
def lines : Nat → Draft → Reader Draft
  | 0, d => return d
  | fuel + 1, d => do
    blanks
    match ← peek with
    | none => return d
    | some '[' => lines fuel (← header d)
    | some '\n' | some '\r' =>
      if ← lineBreak then lines fuel d else refuse
    | some '#' => do
      endOfLine
      lines fuel d
    | some _ => lines fuel (← entry d)

/-- Read a document. A byte order mark may stand before it. -/
def document : Reader Table := do
  let _ ← accept '\ufeff'
  return (← lines (← rounds) ⟨.blank .header, []⟩).root

end Reader

/-- The table that a text denotes, or the number of bytes before what is refused. -/
def parse (text : String) : Except Nat Table :=
  match Reader.document (.start text) with
  | .ok (t, _) => .ok t
  | .error fault => .error fault.index

end Toml

end Patchbay
