import Mathlib.Analysis.SpecialFunctions.Trigonometric.Arctan
import Mathlib.Data.Rat.Sqrt
import Patchbay.Scalar

/-!
# Exact arithmetic

Machine numbers round. What a definition means apart from rounding is said over an ordered field
instead: the scalars there add and multiply exactly, sorting uses the order of the field, and a
decimal numeral is the number it denotes. Nothing is asked of roots and angles.

The real numbers are such scalars, so what is proved of all exact scalars is proved of them. So are
the rational numbers, on which definitions can be evaluated: roots of squares are right there, and
there are no angles.

The operations that are derived from the order tests are then those of the field and its order.
-/

namespace Patchbay

/-- Scalars without rounding: an ordered field, sorted by its own order. -/
class ExactScalar (α : Type) extends Scalar α, Field α, LinearOrder α, IsStrictOrderedRing α where
  totalOrder_eq : ∀ a b : α, totalOrder a b = compare a b
  ofScientific_eq : ∀ m s e, (OfScientific.ofScientific m s e : α) =
    NNRatCast.toOfScientific.ofScientific m s e

noncomputable instance : ExactScalar ℝ where
  __ := (inferInstance : Field ℝ)
  __ := (inferInstance : LinearOrder ℝ)
  __ := (inferInstance : IsStrictOrderedRing ℝ)
  decidableLT := inferInstance
  decidableLE := inferInstance
  sqrt := Real.sqrt
  arctan := Real.arctan
  rightAngle := Real.pi / 2
  totalOrder := compare
  totalOrder_eq _ _ := rfl
  ofScientific_eq _ _ _ := rfl

instance : ExactScalar ℚ where
  __ := (inferInstance : Field ℚ)
  __ := (inferInstance : LinearOrder ℚ)
  __ := (inferInstance : IsStrictOrderedRing ℚ)
  decidableLT := inferInstance
  decidableLE := inferInstance
  sqrt := Rat.sqrt
  arctan _ := 0
  rightAngle := 0
  totalOrder := compare
  totalOrder_eq _ _ := rfl
  ofScientific_eq _ _ _ := rfl

namespace Scalar

variable {α : Type} [ExactScalar α]

/-! ## Derived operations -/

theorem half_eq (a : α) : half a = a / 2 := by
  rw [half, Nat.cast_ofNat]

theorem lesser_eq_min (a b : α) : lesser a b = min a b := by
  have hself : ¬ ¬ b ≤ b := not_not_intro le_rfl
  unfold lesser
  split
  · rename_i h
    rw [min_eq_left (h.resolve_right hself)]
  · rename_i h
    rw [min_eq_right (le_of_not_ge fun hle => h (.inl hle))]

theorem greater_eq_max (a b : α) : greater a b = max a b := by
  have hself : ¬ ¬ b ≤ b := not_not_intro le_rfl
  unfold greater
  split
  · rename_i h
    rw [max_eq_left (h.resolve_right hself)]
  · rename_i h
    rw [max_eq_right (le_of_not_ge fun hle => h (.inl hle))]

theorem abs_eq (a : α) : abs a = |a| := by
  unfold abs
  split
  · rename_i h
    exact (abs_of_neg h).symm
  · rename_i h
    exact (abs_of_nonneg (not_lt.1 h)).symm

/-- Every exact scalar is finite. -/
theorem finite (a : α) : Finite a := by
  have hzero : a - a = 0 := sub_self a
  exact ⟨hzero.le, hzero.ge⟩

theorem tiny_lt_one : (tiny : α) < 1 := by
  unfold tiny
  norm_num

end Scalar

end Patchbay
