import Patchbay.Double
import Patchbay.Toml.Moment

/-!
# Values in TOML

The values of TOML, and how tables grow. A table is written in pieces: under its own header, through
dotted keys, and through the headers of tables inside it. How a table came about decides what may
still be added to it, so each table keeps its origin. No key can be given twice. Keys and values
keep the number of bytes that stand before them in the text.
-/

namespace Patchbay

namespace Toml

/-- Something in a text, and the number of bytes before it. -/
structure Placed (β : Type) where
  index : Nat
  it : β

abbrev Key := Placed String

/-- How a table came about. -/
inductive Origin
  /-- It was written between braces, and is complete. -/
  | inline
  /-- It has a header. -/
  | header
  /-- The header of a table inside it came first. -/
  | implied
  /-- A dotted key runs through it. -/
  | dotted
deriving DecidableEq

/-- A value. A table without a place of its own lies where the key is that it first came about
by. -/
inductive Value
  | text (value : String)
  | integer (value : Int)
  | real (value : Double)
  | boolean (value : Bool)
  | moment (value : Moment)
  /-- Values between brackets. -/
  | array (items : List (Placed Value))
  | table (origin : Origin) (entries : List (Key × Placed Value))
  /-- Tables under headers of one name, last table first. -/
  | tables (items : List (List (Key × Placed Value)))

/-- A table that can still grow. -/
structure Table where
  origin : Origin
  entries : List (Key × Placed Value)

namespace Table

def blank (origin : Origin) : Table := ⟨origin, []⟩

def toValue (t : Table) : Value := .table t.origin t.entries

def get? (t : Table) (key : String) : Option Value :=
  (t.entries.find? (·.1.it = key)).map (·.2.it)

/-- Add a key that is not there. -/
def add (t : Table) (key : Key) (v : Placed Value) : Table :=
  { t with entries := t.entries ++ [(key, v)] }

/-- Change the value of a key that is there. It keeps its place. -/
def replace (t : Table) (key : String) (v : Value) : Table :=
  { t with entries := t.entries.map fun (k, old) =>
      (k, if k.it = key then { old with it := v } else old) }

def erase (t : Table) (key : String) : Table :=
  { t with entries := t.entries.filter (·.1.it ≠ key) }

/-! ## Paths -/

/-- Change the table at the end of a path of headers. Tables on the way are made if they are not
there. The last of several tables under headers of one name is meant. -/
def underHeaders? (change : Table → Option Table) : List Key → Table → Option Table
  | [], t => change t
  | key :: path, t =>
    match t.get? key.it with
    | none => return t.add key ⟨key.index, (← underHeaders? change path (.blank .implied)).toValue⟩
    | some (.table origin entries) =>
      if origin = .inline then none
      else return t.replace key.it (← underHeaders? change path ⟨origin, entries⟩).toValue
    | some (.tables (last :: earlier)) => do
      let changed ← underHeaders? change path ⟨.header, last⟩
      return t.replace key.it (.tables (changed.entries :: earlier))
    | some _ => none

/-- Add a key at the end of a dotted path. Tables on the way are made if they are not there. A table
with a header is not open to dotted keys, but the last of several under headers of one name may be
on the way. The table that the key is added to must have come about by dotted keys. -/
def addDotted? (v : Placed Value) : List Key → Table → Option Table
  | [], _ => none
  | [key], t => if (t.get? key.it).isNone then some (t.add key v) else none
  | key :: path, t =>
    match t.get? key.it with
    | none => return t.add key ⟨key.index, (← addDotted? v path (.blank .dotted)).toValue⟩
    | some (.table .dotted entries) =>
      return t.replace key.it (← addDotted? v path ⟨.dotted, entries⟩).toValue
    | some (.table .implied entries) =>
      if path.length = 1 then none
      else return t.replace key.it (← addDotted? v path ⟨.implied, entries⟩).toValue
    | some (.tables (last :: earlier)) =>
      if path.length = 1 then none
      else do
        let changed ← addDotted? v path ⟨.header, last⟩
        return t.replace key.it (.tables (changed.entries :: earlier))
    | some _ => none

/-- Start the table of a header, which lies at `index`. It must not have come about by its own
header, a dotted key, or braces. It comes after all tables that have begun. -/
def openTable? (index : Nat) (path : List Key) (key : Key) (t : Table) : Option Table :=
  t.underHeaders? (fun parent =>
    match parent.get? key.it with
    | none => some (parent.add key ⟨index, .table .header []⟩)
    | some (.table .implied entries) =>
      some ((parent.erase key.it).add key ⟨index, .table .header entries⟩)
    | some _ => none) path

/-- Start another table under headers of one name, of which the first lies at `index` if it is this
one. -/
def openNext? (index : Nat) (path : List Key) (key : Key) (t : Table) : Option Table :=
  t.underHeaders? (fun parent =>
    match parent.get? key.it with
    | none => some (parent.add key ⟨index, .tables [[]]⟩)
    | some (.tables items) => some (parent.replace key.it (.tables ([] :: items)))
    | some _ => none) path

end Table

end Toml

end Patchbay
