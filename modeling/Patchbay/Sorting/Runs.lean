import Patchbay.Sorting.Short

/-!
# Sorting by runs

A list is taken apart into runs, and neighbouring runs are joined in the order in which a balanced
tree over the whole list would join them. How a run is taken off the front, and how two runs are
joined, is left open here. In the simplest case runs are sorted as they are taken, and joining is
merging.
-/

namespace Patchbay

namespace Sorting

/-- A stretch of a list, which may still have to be sorted. -/
structure Run (β : Type) where
  items : List β
  isSorted : Bool

variable {β : Type} (cmp : β → β → Ordering)

/-! ## The order of joins -/

/-- How deep the join of two neighbouring runs lies: their middles, as binary fractions of a list of
`size` elements, have that many digits in common. The runs reach from `start` to `middle` and from
there to `stop`. -/
def joinDepth (size start middle stop : Nat) : Nat :=
  let unit := (4611686018427387904 + size - 1) / size
  let differing := (unit * (start + middle)) ^^^ (unit * (middle + stop))
  if differing = 0 then 64 else 63 - differing.log2

/-- Join the last run with the runs before it whose joins lie at least as deep as the next one. -/
def joinLast? (join? : Run β → Run β → Option (Run β)) (depth : Nat) :
    List (Run β × Nat) → Run β → Option (List (Run β × Nat) × Run β)
  | [], last => some ([], last)
  | (run, d) :: earlier, last =>
    if depth ≤ d then do joinLast? join? depth earlier (← join? run last)
    else some ((run, d) :: earlier, last)

/-- Take the rest of a list of `size` elements apart, of which `count` come before it, and join all
runs. Each earlier run is held with the depth of its join, last run first. -/
def joinRuns? (take? : List β → Option (Run β × List β)) (join? : Run β → Run β → Option (Run β))
    (size : Nat) : Nat → List (Run β × Nat) → Run β → Nat → List β → Option (Run β)
  | 0, _, _, _, _ => none
  | fuel + 1, earlier, last, count, rest =>
    if rest.isEmpty then do
      let (_, run) ← joinLast? join? 0 earlier last
      return run
    else do
      let (next, rest) ← take? rest
      let after := count + next.items.length
      let depth := joinDepth size (count - last.items.length) count after
      let (earlier, last) ← joinLast? join? depth earlier last
      joinRuns? take? join? size fuel ((last, depth) :: earlier) next after rest

/-- Sort a list by runs, as far as `join?` does so. -/
def byRuns? (take? : List β → Option (Run β × List β)) (join? : Run β → Run β → Option (Run β))
    (xs : List β) : Option (Run β) := do
  let (first, rest) ← take? xs
  joinRuns? take? join? xs.length (xs.length + 1) [] first first.items.length rest

/-! ## Runs that are there -/

/-- The number of elements that follow `x` in a run, which descends or does not. -/
def runLength (descends : Bool) (x : β) : List β → Nat
  | [] => 0
  | y :: rest => if mayPrecede cmp x y = descends then 0 else runLength descends y rest + 1

/-- The run at the front of a list. A run that descends is turned round. -/
def frontRun (xs : List β) : List β × List β :=
  match xs with
  | x :: y :: rest =>
    let descends := !mayPrecede cmp x y
    let n := runLength cmp descends x (y :: rest) + 1
    (if descends then (xs.take n).reverse else xs.take n, xs.drop n)
  | _ => (xs, [])

/-- The length from which a run is left as it is, in a list of `size` elements: about half the list,
or at most 64, and in long lists about the square root of their length. -/
def minRun (size : Nat) : Nat :=
  if size ≤ 4096 then min (size - size / 2) 64
  else
    let shift := (1 + size.log2) / 2
    ((1 <<< shift) + (size >>> shift)) / 2

/-- Take a run off the front of a list: the one that is there if it has `least` elements, or else
what `other?` takes. -/
def takeRun? (least : Nat) (other? : List β → Option (Run β × List β)) (xs : List β) :
    Option (Run β × List β) :=
  let (run, rest) := frontRun cmp xs
  if least ≤ run.length then some (⟨run, true⟩, rest) else other? xs

/-! ## Sorting eagerly -/

/-- A list in order, of which runs are sorted as they are taken. -/
def sortEagerly? (xs : List β) : Option (List β) := do
  let takeShort (rest : List β) : Option (Run β × List β) := do
    return (⟨← sortShort? cmp (rest.take maxShort), true⟩, rest.drop maxShort)
  let join (first second : Run β) : Option (Run β) :=
    some ⟨merge cmp first.items second.items, true⟩
  let run ← byRuns? (takeRun? cmp (minRun xs.length) takeShort) join xs
  return run.items

end Sorting

end Patchbay
