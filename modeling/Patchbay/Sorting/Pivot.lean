import Patchbay.Sorting.Runs

/-!
# Sorting around pivots

A list without runs is split into the elements before a pivot and the others, and both parts are
sorted in the same way. A pivot that is not greater than an earlier one is the least of its part, and
then the elements that are equal to it are split off. After too many splits the part is sorted by
runs.
-/

namespace Patchbay

namespace Sorting

variable {β : Type} (cmp : β → β → Ordering)

/-! ## Choosing -/

/-- The position of the median of three elements. -/
def medianOfThree? (xs : List β) (i j k : Nat) : Option Nat := do
  let x ← xs[i]?
  let y ← xs[j]?
  let z ← xs[k]?
  if (cmp x y = .lt) = (cmp x z = .lt) then
    return if (cmp y z = .lt) = (cmp x y = .lt) then j else k
  else return i

/-- The position of the median of three elements, each of which is the median of its neighbourhood of
`n` elements if that is large. -/
def median? (xs : List β) (n i j k : Nat) : Option Nat :=
  if 8 ≤ n then do
    let m := n / 8
    medianOfThree? cmp xs (← median? xs m i (i + m * 4) (i + m * 7))
      (← median? xs m j (j + m * 4) (j + m * 7)) (← median? xs m k (k + m * 4) (k + m * 7))
  else medianOfThree? cmp xs i j k
termination_by n
decreasing_by all_goals omega

/-- The position of the pivot of a list. -/
def pivot? (xs : List β) : Option Nat :=
  let m := xs.length / 8
  median? cmp xs m 0 (m * 4) (m * 7)

/-! ## Splitting -/

/-- Split a list by a test. The element at a position is put on a given side without a test. -/
def splitAt (position : Nat) (isFirst : Bool) (test : β → Bool) (xs : List β) : List β × List β :=
  let (first, second) := xs.zipIdx.partition fun (x, i) =>
    if i = position then isFirst else test x
  (first.map (·.1), second.map (·.1))

/-- A list in order, after at most `limit` splits on the way to each part. The pivot that the list
came after is given if there is one. -/
def sortAround? : Nat → Option β → List β → Option (List β)
  | limit, earlier, xs =>
    if xs.length ≤ maxShort then sortShort? cmp xs
    else
      match limit with
      | 0 => sortEagerly? cmp xs
      | limit + 1 => do
        let position ← pivot? cmp xs
        let pivot ← xs[position]?
        let (less, others) := splitAt position false (fun x => cmp x pivot = .lt) xs
        if earlier.any (mayPrecede cmp pivot) ∨ less.isEmpty then
          let (equal, greater) := splitAt position true (mayPrecede cmp · pivot) xs
          return equal ++ (← sortAround? limit none greater)
        else
          return (← sortAround? limit earlier less) ++ (← sortAround? limit (some pivot) others)

/-- A list in order. -/
def sortSplitting? (xs : List β) : Option (List β) := sortAround? cmp (2 * xs.length.log2) none xs

/-! ## Sorting lazily -/

/-- The elements of a run in order. -/
def Run.sort? (run : Run β) : Option (List β) :=
  if run.isSorted then some run.items else sortSplitting? cmp run.items

/-- Join two runs. They are sorted first if one of them is sorted already. -/
def Run.join? (first second : Run β) : Option (Run β) :=
  if first.isSorted ∨ second.isSorted then do
    return ⟨merge cmp (← first.sort? cmp) (← second.sort? cmp), true⟩
  else some ⟨first.items ++ second.items, false⟩

/-- A list in order, of which only runs that are there are merged. -/
def sortLazily? (xs : List β) : Option (List β) := do
  let least := minRun xs.length
  let takeAny (rest : List β) : Option (Run β × List β) :=
    some (⟨rest.take least, false⟩, rest.drop least)
  let run ← byRuns? (takeRun? cmp least takeAny) (Run.join? cmp) xs
  run.sort? cmp

/-- A list in the order of a comparison, which need not be an order. For an order the outcome is that
of `stableSort`. There is none if the comparisons are seen to contradict each other. -/
def sort? (xs : List β) : Option (List β) :=
  if xs.length ≤ 20 then some (stableSort cmp xs)
  else if xs.length ≤ 2 * maxShort then sortEagerly? cmp xs
  else sortLazily? cmp xs

end Sorting

end Patchbay
