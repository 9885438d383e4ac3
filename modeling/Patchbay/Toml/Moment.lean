import Patchbay.Toml.Reader

/-!
# Dates and times in TOML

A moment is a date, a time of day, or both, and then perhaps with an offset from universal time.
Fields have fixed numbers of digits, and lie within the bounds of the calendar and the clock.
-/

namespace Patchbay

namespace Toml

/-- A day of the calendar. -/
structure Date where
  year : Nat
  month : Nat
  day : Nat
deriving DecidableEq

/-- A time of day. The last second of a day may be a leap second. -/
structure Time where
  hour : Nat
  minute : Nat
  second : Nat
  nanosecond : Nat
deriving DecidableEq

/-- A moment. -/
inductive Moment
  | date (date : Date)
  | time (time : Time)
  /-- A date and a time, with an offset from universal time in minutes unless it is a local time. -/
  | dateTime (date : Date) (time : Time) (offset : Option Int)
deriving DecidableEq

namespace Date

/-- The year has a twenty-ninth of February. -/
def isLeap (year : Nat) : Bool := year % 4 = 0 ∧ (year % 100 ≠ 0 ∨ year % 400 = 0)

/-- The number of days of a month. -/
def daysOf (year month : Nat) : Nat :=
  if month = 2 then (if isLeap year then 29 else 28)
  else if month ∈ [4, 6, 9, 11] then 30
  else 31

end Date

namespace Reader

def ofFigures (cs : List Char) : Nat := cs.foldl (fun n c => 10 * n + (c.toNat - '0'.toNat)) 0

/-- Read a number of `count` decimal digits, which lies within bounds. -/
def figures (count least most : Nat) : Reader Nat := do
  let cs := (← get).rest.take count
  let n := ofFigures cs
  if cs.length = count ∧ cs.all Char.isDigit ∧ least ≤ n ∧ n ≤ most then do
    modify (·.drop count)
    return n
  else refuse

/-- Read a date. Four digits and a dash can be nothing else. -/
def date : Reader Date := do
  let year ← figures 4 0 9999
  expect '-'
  commit do
    let month ← figures 2 1 12
    expect '-'
    let day ← figures 2 1 (Date.daysOf year month)
    return ⟨year, month, day⟩

/-- Read a fraction of a second. Nine digits of it count. -/
def nanosecond : Reader Nat := do
  expect '.'
  let cs ← takeWhile Char.isDigit
  if cs.isEmpty then refuse else return ofFigures ((cs ++ List.replicate 9 '0').take 9)

/-- Read a time of day. Two digits and a colon can be nothing else. -/
def time : Reader Time := do
  let hour ← figures 2 0 23
  expect ':'
  commit do
    let minute ← figures 2 0 59
    expect ':'
    let second ← figures 2 0 60
    let fraction ← attempt nanosecond
    return ⟨hour, minute, second, fraction.getD 0⟩

/-- Read an offset from universal time, in minutes. -/
def offset : Reader Int := do
  match ← peek with
  | some 'Z' | some 'z' => do
    advance
    return 0
  | some '+' => hours 1
  | some '-' => hours (-1)
  | _ => refuse
where
  /-- Read the hours and minutes after a sign. -/
  hours (sign : Int) : Reader Int := do
    advance
    commit do
      let hour ← figures 2 0 23
      expect ':'
      let minute ← figures 2 0 59
      return sign * (60 * hour + minute : Nat)

/-- Read the time after a date, and an offset if there is one. -/
def timeAndOffset : Reader (Time × Option Int) := do
  let c ← peek
  if c = some 'T' ∨ c = some 't' ∨ c = some ' ' then do
    advance
    let t ← time
    return (t, ← attempt offset)
  else refuse

/-- Read a date, and a time if there is one. -/
def dateAndTime : Reader Moment := do
  let d ← date
  match ← attempt timeAndOffset with
  | some (t, offset) => return .dateTime d t offset
  | none => return .date d

def moment : Reader Moment := either dateAndTime (do return .time (← time))

end Reader

end Toml

end Patchbay
