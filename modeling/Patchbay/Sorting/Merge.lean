/-!
# Merging

Two lists that are sorted are merged into one, and elements of the first come before those of the
second that compare as equal. Merging can go forwards, backwards, or from both ends at a time. The
three ways differ only for a comparison that is no order, and then the two ends may take an element
twice.
-/

namespace Patchbay

namespace Sorting

variable {β : Type} (cmp : β → β → Ordering)

/-- The first may stay before the second. -/
def mayPrecede (x y : β) : Bool := cmp y x ≠ .lt

/-- Merge two lists. The shorter one is worked through from the end at which it stands. -/
def merge (xs ys : List β) : List β :=
  if xs.length ≤ ys.length then xs.merge ys (mayPrecede cmp)
  else (ys.reverse.merge xs.reverse fun y x => mayPrecede cmp x y).reverse

/-- Take elements off the fronts of two lists, each time the lesser of the two that come next. What
is left of both lists is given as well. -/
def takeLesser : Nat → List β → List β → List β × List β × List β
  | n + 1, x :: xs, y :: ys =>
    if mayPrecede cmp x y then
      let (taken, left) := takeLesser n xs (y :: ys)
      (x :: taken, left)
    else
      let (taken, left) := takeLesser n (x :: xs) ys
      (y :: taken, left)
  | _, xs, ys => ([], xs, ys)

/-- Take elements off two lists that are held last element first, each time the greater of the two
that come next. What is left of both lists is given as well. -/
def takeGreater : Nat → List β → List β → List β × List β × List β
  | n + 1, x :: xs, y :: ys =>
    if mayPrecede cmp x y then
      let (taken, left) := takeGreater n (x :: xs) ys
      (y :: taken, left)
    else
      let (taken, left) := takeGreater n xs (y :: ys)
      (x :: taken, left)
  | _, xs, ys => ([], xs, ys)

/-- Merge two lists from both ends, of which the second has as many elements as the first or one
more. Each end takes as many elements as the first list has. -/
def mergeEnds? (xs ys : List β) : Option (List β) :=
  let (front, xsAfter, ysAfter) := takeLesser cmp xs.length xs ys
  let (back, xsBefore, ysBefore) := takeGreater cmp xs.length xs.reverse ys.reverse
  let fromFirst := xs.length - xsAfter.length
  let fromSecond := ys.length - ysAfter.length
  if fromFirst ≤ xsBefore.length ∧ fromSecond ≤ ysBefore.length then
    let middle := xsAfter.take (xsBefore.length - fromFirst) ++
      ysAfter.take (ysBefore.length - fromSecond)
    some (front ++ middle ++ back.reverse)
  else none

end Sorting

end Patchbay
