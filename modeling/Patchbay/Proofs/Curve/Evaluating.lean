import Patchbay.Proofs.Curve.Halving

/-!
# Evaluating by interpolation

Repeated interpolation comes to the same point as the sum of the control points by their shares
(`pointAt_eq_evaluate`), so that lengths and distances, which use the one and the other, are about
one curve. A curve that is split is run through by its two parts, each at its own pace, and the parts
meet where it was split (`evaluate_split`).

The interpolation triangle of a curve is its first row on top of the triangle of the second, so the
parts begin and end as the rows do: `split_of_ne_nil` takes one row off, and the facts about the ends
of the parts are inductions on the rows.
-/

namespace Patchbay

namespace Curve

variable {α : Type} [ExactScalar α] {f : Point α → α} {c : Curve α} {t : α}

/-! ## The ends of the parts -/

/-- The first row begins the part before the parameter and ends the part after it. -/
theorem split_of_ne_nil (hne : c ≠ []) (t : α) :
    split c t = (c.head hne :: (split (interpolate t c) t).1,
      (split (interpolate t c) t).2 ++ [c.getLast hne]) := by
  obtain ⟨p, rest, rfl⟩ := List.exists_cons_of_ne_nil hne
  have hlast := List.getLast?_eq_some_getLast hne
  simp [split, rows, hlast]

theorem split_nil (t : α) : split [] t = ([], []) := by
  simp [split, rows]

/-- The part before the parameter starts where the curve starts. -/
theorem head?_split_fst (c : Curve α) (t : α) : (split c t).1.head? = c.head? := by
  by_cases hne : c = []
  · rw [hne, split_nil]
  · rw [split_of_ne_nil hne, List.head?_cons, List.head?_eq_some_head hne]

/-- The part after the parameter ends where the curve ends. -/
theorem getLast?_split_snd (c : Curve α) (t : α) : (split c t).2.getLast? = c.getLast? := by
  by_cases hne : c = []
  · rw [hne, split_nil]
  · rw [split_of_ne_nil hne, List.getLast?_concat, List.getLast?_eq_some_getLast hne]

/-- The part before the parameter ends at the point there. -/
theorem getLast?_split_fst (hne : c ≠ []) (t : α) :
    (split c t).1.getLast? = some (evaluate c t) := by
  rw [evaluate, split_of_ne_nil hne, List.getLast?_cons, Option.getD_some]

/-- The part after the parameter starts where the part before it ends. -/
theorem head?_split_snd (c : Curve α) (t : α) :
    (split c t).2.head? = (split c t).1.getLast? := by
  induction c using rows.induct t with
  | case1 => rw [split_nil]; rfl
  | case2 p rest ih =>
    rw [split_of_ne_nil (List.cons_ne_nil p rest)]
    cases rest with
    | nil => simp [interpolate, split_nil]
    | cons q rest =>
      -- the second row is not empty, so neither of its ends is that of the first row
      have hrow : interpolate t (p :: q :: rest) ≠ [] := List.cons_ne_nil _ _
      have hend := getLast?_split_fst hrow t
      rw [List.getLast?_cons, List.head?_append, ih, hend]
      rfl

/-! ## The two evaluations -/

namespace Linear

/-- The last row of the triangle is the sum of the control points by their shares. -/
theorem evaluate (hf : Linear f) (c : Curve α) (t : α) :
    f (Curve.evaluate c t) = f (Curve.pointAt c t) := by
  cases hn : c.length with
  | zero =>
    obtain rfl := List.eq_nil_of_length_eq_zero hn
    rw [Curve.evaluate, split_nil]
    rfl
  | succ n =>
    have hlast : Curve.evaluate c t = (split c t).1.getD n Point.origin := by
      rw [Curve.evaluate, List.getLast?_eq_getElem?, (length_split c t).1, hn, Nat.add_sub_cancel,
        List.getD_eq_getElem?_getD]
    have hshort : n < c.length := hn ▸ n.lt_succ_self
    calc f (Curve.evaluate c t)
      _ = readings f (split c t).1 n := congrArg f hlast
      _ = form (readings f c) (toward t ^ n) := hf.readings_split_fst t hshort
      _ = f (Curve.pointAt c t) := (hf.pointAt_eq_form hn t).symm

/-- The two parts of a split curve are evaluated as the curve is before and after the parameter. -/
theorem evaluate_parts (hf : Linear f) (c : Curve α) (t s : α) :
    f (Curve.evaluate (split c t).1 s) = f (Curve.evaluate c (t * s)) ∧
      f (Curve.evaluate (split c t).2 s) = f (Curve.evaluate c (t + (1 - t) * s)) := by
  simp only [hf.evaluate]
  exact hf.pointAt_split c t s

end Linear

/-- **The two evaluations agree**, for curves of any degree and at every parameter. -/
theorem pointAt_eq_evaluate (c : Curve α) (t : α) : pointAt c t = evaluate c t :=
  congrArg₂ Point.mk (linear_x.evaluate c t).symm (linear_y.evaluate c t).symm

/-! ## The parts of a split curve -/

/-- **A split curve is its two parts.** They have as many control points as the curve, run through
it before and after the parameter, and start and end where it starts, is split and ends. -/
theorem evaluate_split (hne : c ≠ []) (t : α) :
    ((split c t).1.length = c.length ∧ (split c t).2.length = c.length) ∧
      (∀ s, evaluate (split c t).1 s = evaluate c (t * s) ∧
        evaluate (split c t).2 s = evaluate c (t + (1 - t) * s)) ∧
      ((split c t).1.head? = c.head? ∧ (split c t).2.getLast? = c.getLast?) ∧
      (split c t).1.getLast? = some (evaluate c t) ∧
        (split c t).2.head? = some (evaluate c t) := by
  refine ⟨length_split c t, fun s => ?_, ⟨head?_split_fst c t, getLast?_split_snd c t⟩,
    getLast?_split_fst hne t, ?_⟩
  · obtain ⟨hleftx, hrightx⟩ := linear_x.evaluate_parts c t s
    obtain ⟨hlefty, hrighty⟩ := linear_y.evaluate_parts c t s
    exact ⟨congrArg₂ Point.mk hleftx hlefty, congrArg₂ Point.mk hrightx hrighty⟩
  · rw [head?_split_snd, getLast?_split_fst hne]

/-- A cubic from corner to corner. -/
def corners : Curve ℚ := [⟨0, 0⟩, ⟨50, 0⟩, ⟨50, 100⟩, ⟨100, 100⟩]

theorem evaluate_split_corners :
    corners ≠ [] ∧
      ((split corners (3 / 10)).1.length = 4 ∧ (split corners (3 / 10)).2.length = 4) ∧
      (∀ s, evaluate (split corners (3 / 10)).1 s = evaluate corners (3 / 10 * s) ∧
        evaluate (split corners (3 / 10)).2 s =
          evaluate corners (3 / 10 + (1 - 3 / 10) * s)) ∧
      ((split corners (3 / 10)).1.head? = some ⟨0, 0⟩ ∧
        (split corners (3 / 10)).2.getLast? = some ⟨100, 100⟩) ∧
      (split corners (3 / 10)).1.getLast? = some (evaluate corners (3 / 10)) ∧
        (split corners (3 / 10)).2.head? = some (evaluate corners (3 / 10)) := by
  have hne : corners ≠ [] := List.cons_ne_nil _ _
  exact ⟨hne, evaluate_split hne (3 / 10)⟩

end Curve

end Patchbay
