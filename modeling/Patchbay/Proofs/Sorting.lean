import Patchbay.Sorting

/-!
# What sorting gives

A list that has been sorted is in the order of the comparison, and elements that compare as equal
have kept their order. The comparison need be an order on the elements of the list only.
-/

namespace Patchbay

variable {β : Type} {cmp : β → β → Ordering}

/-- On the elements of the list the comparison is an order, in which different elements may compare
as equal. -/
structure Orders (cmp : β → β → Ordering) (xs : List β) : Prop where
  flip : ∀ a ∈ xs, ∀ b ∈ xs, cmp a b ≠ .lt → cmp b a ≠ .gt
  trans : ∀ a ∈ xs, ∀ b ∈ xs, ∀ c ∈ xs, cmp a b ≠ .gt → cmp b c ≠ .gt → cmp a c ≠ .gt

theorem Orders.mono {xs ys : List β} (h : Orders cmp xs) (hsub : ∀ y ∈ ys, y ∈ xs) :
    Orders cmp ys where
  flip a ha b hb := h.flip a (hsub a ha) b (hsub b hb)
  trans a ha b hb c hc := h.trans a (hsub a ha) b (hsub b hb) c (hsub c hc)

/-- The first element may stand before the second: it comes first in the order, or the order leaves
them as they are in the list. -/
def MayPrecede (cmp : β → β → Ordering) (xs : List β) (a b : β) : Prop :=
  cmp a b = .lt ∨ cmp a b = .eq ∧ [a, b].Sublist xs

theorem MayPrecede.mono {xs ys : List β} {a b : β} (h : MayPrecede cmp xs a b)
    (hsub : xs.Sublist ys) : MayPrecede cmp ys a b :=
  h.imp_right fun he => ⟨he.1, he.2.trans hsub⟩

theorem mayPrecede_of_ne_gt {xs : List β} {a b : β} (h : cmp a b ≠ .gt)
    (hab : [a, b].Sublist xs) : MayPrecede cmp xs a b := by
  cases hc : cmp a b with
  | lt => exact .inl hc
  | eq => exact .inr ⟨hc, hab⟩
  | gt => exact absurd hc h

theorem mem_insertLast {x y : β} {ys : List β} : y ∈ insertLast cmp x ys ↔ y = x ∨ y ∈ ys := by
  rw [(insertLast_perm cmp x ys).mem_iff, List.mem_cons]

/-- Inserting an element that comes last in the list keeps the sorted elements sorted. -/
theorem pairwise_insertLast {xs ys : List β} {x : β} (ho : Orders cmp (xs ++ [x]))
    (hmem : ∀ y ∈ ys, y ∈ xs) (hs : ys.Pairwise fun b a => MayPrecede cmp xs a b) :
    (insertLast cmp x ys).Pairwise fun b a => MayPrecede cmp (xs ++ [x]) a b := by
  have hsub : xs.Sublist (xs ++ [x]) := List.sublist_append_left xs [x]
  have hx : x ∈ xs ++ [x] := by simp
  have hback : ∀ y ∈ xs, [y, x].Sublist (xs ++ [x]) := fun y hy =>
    (List.singleton_sublist.2 hy).append (.refl [x])
  induction ys with
  | nil => simp [insertLast]
  | cons y rest ih =>
    obtain ⟨hy, hrest⟩ := List.pairwise_cons.1 hs
    have hyxs := hmem y List.mem_cons_self
    have ih := ih (fun z hz => hmem z (List.mem_cons_of_mem y hz)) hrest
    rw [insertLast]
    split
    · rename_i hlt
      refine List.pairwise_cons.2 ⟨fun z hz => ?_, ih⟩
      rcases mem_insertLast.1 hz with rfl | hz
      · exact .inl hlt
      · exact (hy z hz).mono hsub
    · rename_i hge
      have hyx : cmp y x ≠ .gt := ho.flip x hx y (hsub.mem hyxs) hge
      refine List.pairwise_cons.2 ⟨fun z hz => ?_, hs.imp fun h => h.mono hsub⟩
      have hzxs := hmem z hz
      refine mayPrecede_of_ne_gt ?_ (hback z hzxs)
      rcases List.mem_cons.1 hz with rfl | hz
      · exact hyx
      · refine ho.trans z (hsub.mem hzxs) y (hsub.mem hyxs) x hx (fun hgt => ?_) hyx
        rcases hy z hz with h | ⟨h, -⟩ <;> rw [h] at hgt <;> cases hgt

theorem pairwise_foldl_insertLast {xs done ys : List β} (ho : Orders cmp (done ++ xs))
    (hmem : ∀ y ∈ ys, y ∈ done) (hs : ys.Pairwise fun b a => MayPrecede cmp done a b) :
    (xs.foldl (fun sorted x => insertLast cmp x sorted) ys).Pairwise
      fun b a => MayPrecede cmp (done ++ xs) a b := by
  induction xs generalizing done ys with
  | nil => simpa using hs
  | cons x xs ih =>
    have happ : done ++ x :: xs = (done ++ [x]) ++ xs := by simp
    rw [happ] at ho ⊢
    refine ih ho (fun y hy => ?_) (pairwise_insertLast (ho.mono ?_) hmem hs)
    · rcases mem_insertLast.1 hy with rfl | hy
      · simp
      · exact List.mem_append_left _ (hmem y hy)
    · exact fun y hy => List.mem_append_left _ hy

/-- A sorted list is in order, and elements that compare as equal have kept their order. -/
theorem pairwise_stableSort {xs : List β} (ho : Orders cmp xs) :
    (stableSort cmp xs).Pairwise (MayPrecede cmp xs) := by
  have hnil : ([] : List β).Pairwise fun b a => MayPrecede cmp [] a b := .nil
  rw [stableSort, List.pairwise_reverse]
  exact pairwise_foldl_insertLast ho (by simp) hnil

/-- A list that is in order is left as it is. -/
theorem stableSort_of_pairwise {xs : List β} (h : xs.Pairwise fun a b => cmp b a ≠ .lt) :
    stableSort cmp xs = xs := by
  have hfold : ∀ xs done : List β, (done.reverse ++ xs).Pairwise (fun a b => cmp b a ≠ .lt) →
      xs.foldl (fun sorted x => insertLast cmp x sorted) done = xs.reverse ++ done := by
    intro xs
    induction xs with
    | nil => exact fun done _ => rfl
    | cons x xs ih =>
      intro done hsorted
      have hlast : insertLast cmp x done = x :: done := by
        cases done with
        | nil => rfl
        | cons y done =>
          rw [insertLast, if_neg]
          exact (List.pairwise_append.1 hsorted).2.2 y (by simp) x List.mem_cons_self
      rw [List.foldl_cons, hlast, ih (x :: done) (by simpa using hsorted)]
      simp
  rw [stableSort, hfold xs [] h, List.append_nil, List.reverse_reverse]

/-! ## What keeps its order -/

theorem filter_insertLast {p : β → Bool} {x : β} {ys : List β}
    (h : p x = true → ∀ y ∈ ys, p y = true → cmp x y ≠ .lt) :
    (insertLast cmp x ys).filter p = (x :: ys).filter p := by
  induction ys with
  | nil => rfl
  | cons y rest ih =>
    have ih := ih fun hx z hz => h hx z (List.mem_cons_of_mem y hz)
    rw [insertLast]
    split
    · rename_i hlt
      by_cases hx : p x = true
      · have hy : ¬ p y = true := fun hy => h hx y List.mem_cons_self hy hlt
        rw [List.filter_cons_of_neg hy, ih, List.filter_cons_of_pos hx, List.filter_cons_of_pos hx,
          List.filter_cons_of_neg hy]
      · rw [List.filter_cons, ih, List.filter_cons_of_neg hx, List.filter_cons_of_neg hx,
          List.filter_cons]
    · rfl

/-- Elements none of which comes before another keep their order. -/
theorem filter_stableSort {p : β → Bool} {xs : List β}
    (h : ∀ x y, p x = true → p y = true → cmp x y ≠ .lt) :
    (stableSort cmp xs).filter p = xs.filter p := by
  have hfold : ∀ xs ys : List β,
      (xs.foldl (fun sorted x => insertLast cmp x sorted) ys).filter p =
        (xs.filter p).reverse ++ ys.filter p := by
    intro xs
    induction xs with
    | nil => exact fun ys => rfl
    | cons x xs ih =>
      intro ys
      rw [List.foldl_cons, ih, filter_insertLast fun hx y _ hy => h x y hx hy]
      by_cases hx : p x = true
      · simp [List.filter_cons_of_pos hx]
      · simp [List.filter_cons_of_neg hx]
  rw [stableSort, List.filter_reverse, hfold, List.filter_nil, List.append_nil,
    List.reverse_reverse]

end Patchbay
