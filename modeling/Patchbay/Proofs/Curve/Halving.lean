import Patchbay.Proofs.Curve.Bernstein

/-!
# Splitting a curve

The two parts into which a curve is split are the curve before and after the parameter, run through
at the pace that takes them from 0 to 1 again (`pointAt_split`).

A row of the interpolation triangle arises from the row above by a polynomial in the shift of the
control points, and so do the weighted sums that the points of a curve are. A reading of a point is
therefore the value of a polynomial in which the power `X ^ k` stands for the control point `k`
(`form`). The identity between the two curves is then one between two powers of a binomial.
-/

namespace Patchbay

namespace Curve

open Finset (range)
open Polynomial (C X)

variable {α : Type} [ExactScalar α] {f : Point α → α} {c : Curve α}

/-! ## Polynomials in the shift -/

/-- The value of a polynomial when `g k` is put for the power `X ^ k`. -/
noncomputable def form (g : Nat → α) : Polynomial α →ₗ[α] α :=
  Polynomial.lsum fun k => LinearMap.mulRight α (g k)

theorem form_X_pow (g : Nat → α) (k : Nat) : form g (X ^ k) = g k := by
  rw [form, Polynomial.lsum_apply, ← Polynomial.monomial_one_right_eq_X_pow,
    Polynomial.sum_monomial_index _ _ (by simp)]
  simp

/-- The step to a neighbouring control point, by the share `t` of the way. -/
noncomputable def toward (t : α) : Polynomial α := C (1 - t) + C t * X

theorem form_mul_toward (g : Nat → α) (P : Polynomial α) (t : α) :
    form g (P * toward t) = form g P * (1 - t) + form g (P * X) * t := by
  have hparts : P * toward t = (1 - t) • P + t • (P * X) := by
    rw [toward, Polynomial.smul_eq_C_mul, Polynomial.smul_eq_C_mul]
    ring
  rw [hparts, map_add, map_smul, map_smul, smul_eq_mul, smul_eq_mul, mul_comm (1 - t), mul_comm t]

def readings (f : Point α → α) (c : Curve α) (k : Nat) : α := f (c.getD k Point.origin)

/-- A sum by shares of values that arise by the powers of two steps is one power of a step. -/
theorem sum_form_mul (g : Nat → α) (A B : Polynomial α) (n : Nat) (t : α) :
    ∑ k ∈ range (n + 1),
        form g (A ^ (n - k) * B ^ k) * (bernsteinPolynomial α n k).eval t =
      form g ((C (1 - t) * A + C t * B) ^ n) := by
  rw [add_comm (C (1 - t) * A), add_pow, map_sum]
  refine Finset.sum_congr rfl fun k _ => ?_
  have hterm : (C t * B) ^ k * (C (1 - t) * A) ^ (n - k) * (n.choose k : Polynomial α) =
      ((bernsteinPolynomial α n k).eval t) • (A ^ (n - k) * B ^ k) := by
    rw [Polynomial.smul_eq_C_mul]
    simp only [bernsteinPolynomial, Polynomial.eval_mul, Polynomial.eval_pow, Polynomial.eval_sub,
      Polynomial.eval_natCast, Polynomial.eval_X, Polynomial.eval_one, C.map_mul, C.map_pow,
      Polynomial.C_eq_natCast]
    ring
  rw [hterm, map_smul, smul_eq_mul, mul_comm]

namespace Linear

/-- The points of a curve of `n + 1` control points are taken from them by `n` steps. -/
theorem pointAt_eq_form {n : Nat} (hf : Linear f) (hn : c.length = n + 1) (t : α) :
    f (Curve.pointAt c t) = form (readings f c) (toward t ^ n) := by
  have hstep : toward t = C (1 - t) * 1 + C t * X := by rw [mul_one]; rfl
  rw [hf.pointAt, hn, Nat.add_sub_cancel, hstep, ← sum_form_mul]
  refine Finset.sum_congr rfl fun k _ => ?_
  rw [one_pow, one_mul, form_X_pow, readings]

end Linear

/-! ## The interpolation triangle -/

theorem length_iterate_interpolate (c : Curve α) (t : α) (j : Nat) :
    ((interpolate t)^[j] c).length = c.length - j := by
  induction j with
  | zero => rfl
  | succ j ih => rw [Function.iterate_succ_apply', length_interpolate, ih, Nat.sub_sub]

theorem getD_interpolate (t : α) (c : Curve α) {k : Nat} (h : k + 1 < c.length) :
    (interpolate t c).getD k Point.origin =
      (c.getD k Point.origin).lerp (c.getD (k + 1) Point.origin) t := by
  induction c generalizing k with
  | nil => exact absurd h (Nat.not_lt_zero _)
  | cons p rest ih =>
    cases rest with
    | nil => exact absurd (Nat.lt_of_succ_lt_succ h) (Nat.not_lt_zero _)
    | cons q rest =>
      cases k with
      | zero => rfl
      | succ k => exact ih (Nat.lt_of_succ_lt_succ h)

theorem rows_eq_map (t : α) (c : Curve α) :
    rows t c = (List.range c.length).map fun j => (interpolate t)^[j] c := by
  fun_induction rows t c with
  | case1 => rfl
  | case2 p rest ih =>
    rw [ih, length_interpolate, List.length_cons, Nat.add_sub_cancel, List.range_succ_eq_map,
      List.map_cons, List.map_map]
    rfl

/-- The control points before the parameter are the first ones of the rows. -/
theorem split_fst (c : Curve α) (t : α) : (split c t).1 =
    (List.range c.length).map fun j => ((interpolate t)^[j] c).getD 0 Point.origin := by
  simp only [split, rows_eq_map, List.filterMap_map]
  refine List.filterMap_eq_map_iff_forall_eq_some.2 fun j hj => ?_
  have hpos : 0 < ((interpolate t)^[j] c).length := by
    rw [length_iterate_interpolate]
    exact Nat.sub_pos_of_lt (List.mem_range.1 hj)
  rw [Function.comp_apply, List.head?_eq_getElem?, List.getD_eq_getElem?_getD,
    List.getElem?_eq_getElem hpos, Option.getD_some]

/-- The control points after the parameter are the last ones of the rows, from below. -/
theorem split_snd (c : Curve α) (t : α) : (split c t).2 =
    ((List.range c.length).map fun j =>
      ((interpolate t)^[j] c).getD (c.length - 1 - j) Point.origin).reverse := by
  simp only [split, rows_eq_map, List.filterMap_map]
  refine congrArg List.reverse (List.filterMap_eq_map_iff_forall_eq_some.2 fun j hj => ?_)
  have hj := List.mem_range.1 hj
  have hlast : c.length - 1 - j < ((interpolate t)^[j] c).length := by
    rw [length_iterate_interpolate]
    omega
  rw [Function.comp_apply, List.getLast?_eq_getElem?, length_iterate_interpolate,
    Nat.sub_right_comm, List.getD_eq_getElem?_getD, List.getElem?_eq_getElem hlast,
    Option.getD_some]

theorem length_split (c : Curve α) (t : α) :
    (split c t).1.length = c.length ∧ (split c t).2.length = c.length := by
  simp [split_fst, split_snd]

namespace Linear

/-- The control point `k` of row `j` is taken from the curve by `j` steps. -/
theorem iterate_interpolate (hf : Linear f) (t : α) {j k : Nat} (h : j + k < c.length) :
    readings f ((interpolate t)^[j] c) k = form (readings f c) (toward t ^ j * X ^ k) := by
  induction j generalizing k with
  | zero => rw [pow_zero, one_mul, form_X_pow, Function.iterate_zero_apply]
  | succ j ih =>
    have hnext : k + 1 < ((interpolate t)^[j] c).length := by
      rw [length_iterate_interpolate]
      omega
    calc readings f ((interpolate t)^[j + 1] c) k
      _ = readings f ((interpolate t)^[j] c) k * (1 - t) +
          readings f ((interpolate t)^[j] c) (k + 1) * t := by
        rw [readings, Function.iterate_succ_apply', getD_interpolate t _ hnext, hf.lerp]
        rfl
      _ = form (readings f c) (toward t ^ j * X ^ k * toward t) := by
        rw [form_mul_toward, ih (by omega), ih (by omega), pow_succ X, mul_assoc]
      _ = form (readings f c) (toward t ^ (j + 1) * X ^ k) := by
        rw [pow_succ, mul_right_comm]

theorem readings_split_fst (hf : Linear f) (t : α) {k : Nat} (h : k < c.length) :
    readings f (split c t).1 k = form (readings f c) (toward t ^ k) := by
  rw [← mul_one (toward t ^ k), ← pow_zero X, ← hf.iterate_interpolate t (by omega), readings,
    split_fst, List.getD_eq_getElem?_getD, List.getElem?_map, List.getElem?_range h]
  rfl

theorem readings_split_snd {n : Nat} (hf : Linear f) (hn : c.length = n + 1) (t : α) {k : Nat}
    (h : k ≤ n) :
    readings f (split c t).2 k = form (readings f c) (toward t ^ (n - k) * X ^ k) := by
  have hrow : c.length - 1 - k = n - k := by omega
  have hlast : c.length - 1 - (n - k) = k := by omega
  rw [← hf.iterate_interpolate t (by omega), readings, split_snd, List.getD_eq_getElem?_getD,
    List.getElem?_reverse (by simp; omega), List.length_map, List.length_range, hrow,
    List.getElem?_map, List.getElem?_range (by omega), Option.map_some, Option.getD_some, hlast]
  rfl

/-- The two parts of a split curve are the curve before and after the parameter. -/
theorem pointAt_split (hf : Linear f) (c : Curve α) (m t : α) :
    f (Curve.pointAt (split c m).1 t) = f (Curve.pointAt c (m * t)) ∧
      f (Curve.pointAt (split c m).2 t) = f (Curve.pointAt c (m + (1 - m) * t)) := by
  cases hn : c.length with
  | zero =>
    obtain rfl := List.eq_nil_of_length_eq_zero hn
    simp [split, rows, Curve.pointAt]
  | succ n =>
    obtain ⟨hleft, hright⟩ := length_split c m
    constructor
    · have hsteps : C (1 - t) * 1 + C t * toward m = toward (m * t) := by
        simp only [toward, Polynomial.C_sub, Polynomial.C_mul, Polynomial.C_1]
        ring
      rw [hf.pointAt, hleft, hn, hf.pointAt_eq_form hn, ← hsteps, ← sum_form_mul]
      refine Finset.sum_congr rfl fun k hk => congrArg (· * _) ?_
      rw [one_pow, one_mul]
      exact hf.readings_split_fst m (by rw [hn]; exact Finset.mem_range.1 hk)
    · have hsteps : C (1 - t) * toward m + C t * X = toward (m + (1 - m) * t) := by
        simp only [toward, Polynomial.C_sub, Polynomial.C_mul, Polynomial.C_add, Polynomial.C_1]
        ring
      rw [hf.pointAt, hright, hn, hf.pointAt_eq_form hn, ← hsteps, ← sum_form_mul]
      refine Finset.sum_congr rfl fun k hk => congrArg (· * _) ?_
      exact hf.readings_split_snd hn m (Finset.mem_range_succ_iff.1 hk)

end Linear

/-- The two parts of a split curve are the curve before and after the parameter. -/
theorem pointAt_split (c : Curve α) (m t : α) :
    pointAt (split c m).1 t = pointAt c (m * t) ∧
      pointAt (split c m).2 t = pointAt c (m + (1 - m) * t) :=
  have hx := linear_x.pointAt_split c m t
  have hy := linear_y.pointAt_split c m t
  ⟨congrArg₂ Point.mk hx.1 hy.1, congrArg₂ Point.mk hx.2 hy.2⟩

end Curve

end Patchbay
