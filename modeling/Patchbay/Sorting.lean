/-!
# Stable sorting

Sorting by insertion: each element moves past the elements before it that come strictly after it in
the order. Elements that compare as equal keep their order. For an order there is only one such
outcome, and every way to sort has it. For a comparison that is no order `Sorting.sort?` says what
becomes of a list.
-/

namespace Patchbay

variable {β : Type}

/-- Insert an element at the end of a sorted list that is held last element first. -/
def insertLast (cmp : β → β → Ordering) (x : β) : List β → List β
  | [] => [x]
  | y :: rest => if cmp x y = .lt then y :: insertLast cmp x rest else x :: y :: rest

/-- The list in the order of the comparison. -/
def stableSort (cmp : β → β → Ordering) (xs : List β) : List β :=
  (xs.foldl (fun sorted x => insertLast cmp x sorted) []).reverse

theorem insertLast_perm (cmp : β → β → Ordering) (x : β) (xs : List β) :
    (insertLast cmp x xs).Perm (x :: xs) := by
  induction xs with
  | nil => exact List.Perm.refl _
  | cons y rest ih =>
    rw [insertLast]
    split
    · exact (ih.cons y).trans (List.Perm.swap x y rest)
    · exact List.Perm.refl _

theorem foldl_insertLast_perm (cmp : β → β → Ordering) (xs sorted : List β) :
    (xs.foldl (fun sorted x => insertLast cmp x sorted) sorted).Perm (xs ++ sorted) := by
  induction xs generalizing sorted with
  | nil => exact List.Perm.refl _
  | cons x xs ih =>
    refine (ih _).trans ?_
    exact ((insertLast_perm cmp x sorted).append_left xs).trans List.perm_middle

/-- Sorting keeps the elements. -/
theorem stableSort_perm (cmp : β → β → Ordering) (xs : List β) : (stableSort cmp xs).Perm xs := by
  refine (List.reverse_perm _).trans ?_
  simpa using foldl_insertLast_perm cmp xs []

end Patchbay
