import Patchbay.Sorting
import Patchbay.Sorting.Merge

/-!
# Sorting short lists

Short lists are sorted in two halves, which are merged from both ends. The front of each half is
sorted with as few comparisons as possible, and its other elements are inserted.
-/

namespace Patchbay

namespace Sorting

variable {β : Type} (cmp : β → β → Ordering)

def sortTwo (x y : β) : β × β := if mayPrecede cmp x y then (x, y) else (y, x)

/-- Four elements in order. The least and the greatest of two pairs are found first, and the two
elements that are left are compared last. -/
def sortFour (w x y z : β) : List β :=
  let (a, b) := sortTwo cmp w x
  let (c, d) := sortTwo cmp y z
  let (least, greatest, left, right) :=
    match mayPrecede cmp a c, mayPrecede cmp b d with
    | true, true => (a, d, b, c)
    | true, false => (a, b, c, d)
    | false, true => (c, d, a, b)
    | false, false => (c, b, a, d)
  let (low, high) := sortTwo cmp left right
  [least, low, high, greatest]

/-- The front of a list in order: eight, four or one of its elements, as its length allows and as
the length of the whole list asks for. What follows it is given as well. -/
def sortFront? (size : Nat) (xs : List β) : Option (List β × List β) :=
  match xs with
  | a :: b :: c :: d :: rest =>
    match decide (16 ≤ size), rest with
    | true, e :: f :: g :: h :: rest => do
      return (← mergeEnds? cmp (sortFour cmp a b c d) (sortFour cmp e f g h), rest)
    | _, _ => if 8 ≤ size then some (sortFour cmp a b c d, rest) else some ([a], b :: c :: d :: rest)
  | x :: rest => some ([x], rest)
  | [] => some ([], [])

/-- One half of a list of `size` elements in order. -/
def sortHalf? (size : Nat) (xs : List β) : Option (List β) := do
  let (front, rest) ← sortFront? cmp size xs
  return (rest.foldl (fun sorted x => insertLast cmp x sorted) front.reverse).reverse

/-- A short list in order. -/
def sortShort? (xs : List β) : Option (List β) :=
  if xs.length < 2 then some xs
  else do
    let half := xs.length / 2
    mergeEnds? cmp (← sortHalf? cmp xs.length (xs.take half))
      (← sortHalf? cmp xs.length (xs.drop half))

/-- The length up to which a list is short. -/
def maxShort : Nat := 32

end Sorting

end Patchbay
