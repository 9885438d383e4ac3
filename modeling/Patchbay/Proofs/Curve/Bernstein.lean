import Mathlib.RingTheory.Polynomial.Bernstein
import Mathlib.Tactic.Linarith
import Patchbay.Curve.Basic
import Patchbay.Proofs.Exact

/-!
# Curves as polynomials

On scalars without rounding, the shares of the control points of a curve are the Bernstein
polynomials, so that each coordinate of the curve is a polynomial of its parameter
(`Linear.eval_polynomial`). The shares are not negative between 0 and 1 and add up to one. Hence the
curve stays where its control points are (`Linear.pointAt_le`), and it starts at the first of them
and ends at the last.

What is said of a coordinate holds of every reading of points that respects sums and multiples, such
as the height over a line (`Linear`).
-/

namespace Patchbay

open Finset (range)
open Polynomial (C X eval)

namespace Scalar

variable {α : Type} [ExactScalar α]

theorem powerInto_eq (a : α) (n : Nat) (acc : α) : powerInto a n acc = acc * a ^ n := by
  -- the lowest binary digit is multiplied in, and the rest is a power of the square
  have hdigit (a acc : α) (n : Nat) :
      (if n % 2 = 1 then acc * a else acc) * (a * a) ^ (n / 2) = acc * a ^ n := by
    conv_rhs => rw [← Nat.div_add_mod n 2, pow_add, pow_mul, pow_two]
    rcases Nat.mod_two_eq_zero_or_one n with hn | hn
    · rw [hn, if_neg Nat.zero_ne_one, pow_zero, mul_one]
    · rw [hn, if_pos rfl, pow_one, mul_right_comm, mul_assoc]
  induction n using Nat.strongRecOn generalizing a acc with
  | ind n ih =>
    rw [powerInto, ← hdigit]
    split
    · rename_i hzero
      rw [hzero, pow_zero, mul_one]
    · exact ih _ (by omega) _ _

theorem power_eq_pow (a : α) (n : Nat) : power a n = a ^ n := by
  rw [power, powerInto_eq, one_mul]

end Scalar

namespace Curve

variable {α : Type} [ExactScalar α] {f : Point α → α} {c : Curve α} {t b : α}

/-! ## Shares -/

theorem coefficient_eq_choose (n k : Nat) : (coefficient n k : α) = (n.choose k : α) := by
  induction k with
  | zero => simp [coefficient]
  | succ k ih =>
    rw [coefficient, ih, div_eq_iff (Nat.cast_ne_zero.2 k.succ_ne_zero)]
    exact_mod_cast (Nat.choose_succ_right_eq n k).symm

theorem weight_eq (n i : Nat) (t : α) : weight n i t = (bernsteinPolynomial α n i).eval t := by
  rw [weight, coefficient_eq_choose, Scalar.power_eq_pow, Scalar.power_eq_pow]
  simp [bernsteinPolynomial]

theorem eval_bernstein_nonneg (h₀ : 0 ≤ t) (h₁ : t ≤ 1) (n i : Nat) :
    0 ≤ (bernsteinPolynomial α n i).eval t := by
  have hrest : 0 ≤ 1 - t := sub_nonneg.2 h₁
  simp only [bernsteinPolynomial, Polynomial.eval_mul, Polynomial.eval_pow, Polynomial.eval_sub,
    Polynomial.eval_natCast, Polynomial.eval_X, Polynomial.eval_one]
  positivity

theorem sum_eval_bernstein (n : Nat) (t : α) :
    ∑ i ∈ range (n + 1), (bernsteinPolynomial α n i).eval t = 1 := by
  rw [← Polynomial.eval_finsetSum, bernsteinPolynomial.sum, Polynomial.eval_one]

/-! ## Readings of points -/

/-- A reading of points that respects sums and multiples. -/
structure Linear (f : Point α → α) : Prop where
  add : ∀ p q, f (p + q) = f p + f q
  mul : ∀ p t, f (p * t) = f p * t

theorem linear_x : Linear (Point.x : Point α → α) := ⟨fun _ _ => rfl, fun _ _ => rfl⟩

theorem linear_y : Linear (Point.y : Point α → α) := ⟨fun _ _ => rfl, fun _ _ => rfl⟩

/-- A combination of the coordinates. -/
theorem linear_mul_add_mul (a b : α) : Linear fun p : Point α => a * p.x + b * p.y where
  add p q := by
    simp only [Point.add_x, Point.add_y]
    ring
  mul p t := by
    simp only [Point.mul_x, Point.mul_y]
    ring

namespace Linear

theorem neg (hf : Linear f) : Linear fun p => -f p where
  add p q := by
    rw [hf.add, neg_add]
  mul p t := by
    rw [hf.mul, neg_mul]

theorem origin (hf : Linear f) : f Point.origin = 0 := by
  have hsame : (Point.origin : Point α) * (0 : α) = Point.origin :=
    congrArg₂ Point.mk (mul_zero _) (mul_zero _)
  rw [← hsame, hf.mul, mul_zero]

theorem lerp (hf : Linear f) (p q : Point α) (t : α) :
    f (p.lerp q t) = f p * (1 - t) + f q * t := by
  rw [Point.lerp, hf.add, hf.mul, hf.mul]

theorem foldl (hf : Linear f) (w : Nat → α) (ps : List (Point α × Nat)) (p : Point α) :
    f (ps.foldl (fun sum (p, i) => sum + p * w i) p) =
      f p + (ps.map fun x => f x.1 * w x.2).sum := by
  induction ps generalizing p with
  | nil => simp
  | cons x ps ih =>
    rw [List.foldl_cons, ih, hf.add, hf.mul, List.map_cons, List.sum_cons, add_assoc]

end Linear

theorem getD_mem {i : Nat} (h : i < c.length) : c.getD i Point.origin ∈ c := by
  rw [List.getD_eq_getElem?_getD, List.getElem?_eq_getElem h]
  exact List.getElem_mem h

theorem zipIdx_eq_map (c : Curve α) :
    c.zipIdx = (List.range c.length).map fun i => (c.getD i Point.origin, i) := by
  refine List.ext_getElem (by simp) fun i hi _ => ?_
  simp only [List.length_zipIdx] at hi
  simp [hi]

/-! ## Polynomials -/

/-- The polynomial that a reading of a curve is. -/
noncomputable def polynomial (f : Point α → α) (c : Curve α) : Polynomial α :=
  ∑ i ∈ range c.length, C (f (c.getD i Point.origin)) * bernsteinPolynomial α (c.length - 1) i

namespace Linear

/-- A reading of a point of the curve is the sum of those of the control points by their shares. -/
theorem pointAt (hf : Linear f) (c : Curve α) (t : α) : f (pointAt c t) =
    ∑ i ∈ range c.length,
      f (c.getD i Point.origin) * (bernsteinPolynomial α (c.length - 1) i).eval t := by
  rw [Curve.pointAt, hf.foldl (fun i => weight (c.length - 1) i t), hf.origin, zero_add,
    zipIdx_eq_map, List.map_map]
  simp only [← weight_eq]
  rfl

theorem eval_polynomial (hf : Linear f) (c : Curve α) (t : α) :
    (polynomial f c).eval t = f (Curve.pointAt c t) := by
  rw [hf.pointAt, polynomial, Polynomial.eval_finsetSum]
  simp only [Polynomial.eval_mul, Polynomial.eval_C]

/-- Between 0 and 1, the curve is nowhere beyond all of its control points. -/
theorem pointAt_le (hf : Linear f) (hne : c ≠ []) (h₀ : 0 ≤ t) (h₁ : t ≤ 1)
    (hb : ∀ p ∈ c, f p ≤ b) : f (Curve.pointAt c t) ≤ b := by
  have hlength : c.length - 1 + 1 = c.length :=
    Nat.succ_pred_eq_of_pos (List.length_pos_of_ne_nil hne)
  calc f (Curve.pointAt c t)
    _ = ∑ i ∈ range c.length,
        f (c.getD i Point.origin) * (bernsteinPolynomial α (c.length - 1) i).eval t :=
      hf.pointAt c t
    _ ≤ ∑ i ∈ range c.length, b * (bernsteinPolynomial α (c.length - 1) i).eval t := by
      refine Finset.sum_le_sum fun i hi => ?_
      exact mul_le_mul_of_nonneg_right (hb _ (getD_mem (Finset.mem_range.1 hi)))
        (eval_bernstein_nonneg h₀ h₁ _ _)
    _ = b := by
      rw [← Finset.mul_sum, ← hlength, Nat.add_sub_cancel, sum_eval_bernstein, mul_one]

theorem le_pointAt (hf : Linear f) (hne : c ≠ []) (h₀ : 0 ≤ t) (h₁ : t ≤ 1)
    (hb : ∀ p ∈ c, b ≤ f p) : b ≤ f (Curve.pointAt c t) :=
  neg_le_neg_iff.1 (hf.neg.pointAt_le hne h₀ h₁ fun p hp => neg_le_neg (hb p hp))

/-- The curve starts at its first control point. -/
theorem pointAt_zero (hf : Linear f) (hne : c ≠ []) :
    f (Curve.pointAt c 0) = f (c.head hne) := by
  obtain ⟨p, ps, rfl⟩ := List.exists_cons_of_ne_nil hne
  simp [hf.pointAt, bernsteinPolynomial.eval_at_0]

/-- The curve ends at its last control point. -/
theorem pointAt_one (hf : Linear f) (hne : c ≠ []) :
    f (Curve.pointAt c 1) = f (c.getLast hne) := by
  have hlast : c.length - 1 < c.length := Nat.sub_lt (List.length_pos_of_ne_nil hne) one_pos
  simp [hf.pointAt, bernsteinPolynomial.eval_at_1, hlast, List.getLast_eq_getElem]

end Linear

end Curve

end Patchbay
