import Mathlib.Analysis.Calculus.Deriv.Polynomial
import Mathlib.Topology.Algebra.Module.ModuleTopology
import Patchbay.Curve.Nearest
import Patchbay.Proofs.Curve.Bernstein

/-!
# The slope of the distance

The derivative of the squared distance from `p` to a curve `B` is twice `(B(t) − p) · B'(t)`, where
`B'` is taken coordinate by coordinate as the derivative of a polynomial (`slope`). The control
points from which its zeros are isolated describe its graph: at the parameter `t` that curve is at
`(t, slope p c t)` (`pointAt_slopeCurve`).
-/

namespace Patchbay

namespace Curve

open Finset (range)
open Polynomial (C X eval derivative)

variable {α : Type} [ExactScalar α] {f : Point α → α} {c : Curve α} {m : Nat}

noncomputable def velocity (c : Curve α) (t : α) : Point α :=
  ⟨(derivative (polynomial Point.x c)).eval t, (derivative (polynomial Point.y c)).eval t⟩

/-- Half of the derivative of the squared distance from `p`. -/
noncomputable def slope (p : Point α) (c : Curve α) (t : α) : α :=
  (pointAt c t - p).dot (velocity c t)

/-- On the real numbers, the velocity is the derivative of the curve. -/
theorem hasDerivAt_pointAt (c : Curve ℝ) (t : ℝ) :
    HasDerivAt (fun s => (pointAt c s).x) (velocity c t).x t ∧
      HasDerivAt (fun s => (pointAt c s).y) (velocity c t).y t := by
  simp only [← linear_x.eval_polynomial, ← linear_y.eval_polynomial]
  exact ⟨Polynomial.hasDerivAt _ t, Polynomial.hasDerivAt _ t⟩

/-- On the real numbers, the squared distance from `p` grows at twice the slope. -/
theorem hasDerivAt_lengthSquared (p : Point ℝ) (c : Curve ℝ) (t : ℝ) :
    HasDerivAt (fun s => (pointAt c s - p).lengthSquared) (2 * slope p c t) t := by
  obtain ⟨hx, hy⟩ := hasDerivAt_pointAt c t
  have hx := hx.sub_const p.x
  have hy := hy.sub_const p.y
  refine ((hx.mul hx).add (hy.mul hy)).congr_deriv ?_
  simp only [slope, Point.dot, Point.sub_x, Point.sub_y]
  ring

/-! ## The derivative of a curve -/

theorem sum_mul_derivative_bernstein (a : Nat → α) (m : Nat) :
    ∑ i ∈ range (m + 2), C (a i) * derivative (bernsteinPolynomial α (m + 1) i) =
      ∑ j ∈ range (m + 1),
        C ((a (j + 1) - a j) * ((m + 1 : Nat) : α)) * bernsteinPolynomial α m j := by
  -- the shares of the later control points, with that of the first, are those of all
  have hshift : ∑ j ∈ range (m + 1), C (a (j + 1)) * bernsteinPolynomial α m (j + 1) +
      C (a 0) * bernsteinPolynomial α m 0 =
        ∑ j ∈ range (m + 1), C (a j) * bernsteinPolynomial α m j := by
    rw [← Finset.sum_range_succ' fun i => C (a i) * bernsteinPolynomial α m i,
      Finset.sum_range_succ, bernsteinPolynomial.eq_zero_of_lt α m.lt_succ_self, mul_zero, add_zero]
  calc ∑ i ∈ range (m + 2), C (a i) * derivative (bernsteinPolynomial α (m + 1) i)
    _ = ((m + 1 : Nat) : Polynomial α) *
        (∑ j ∈ range (m + 1), C (a (j + 1)) * bernsteinPolynomial α m j -
          (∑ j ∈ range (m + 1), C (a (j + 1)) * bernsteinPolynomial α m (j + 1) +
            C (a 0) * bernsteinPolynomial α m 0)) := by
      rw [Finset.sum_range_succ', bernsteinPolynomial.derivative_zero]
      simp only [bernsteinPolynomial.derivative_succ, Nat.add_sub_cancel, mul_sub, mul_add,
        Finset.mul_sum, Finset.sum_sub_distrib, mul_left_comm (C _)]
      ring
    _ = _ := by
      rw [hshift, ← Finset.sum_sub_distrib, Finset.mul_sum]
      refine Finset.sum_congr rfl fun j _ => ?_
      rw [Polynomial.C_mul, Polynomial.C_sub, Polynomial.C_eq_natCast]
      ring

namespace Linear

theorem sub (hf : Linear f) (p q : Point α) : f (p - q) = f p - f q := by
  have hback : p - q + q = p := congrArg₂ Point.mk (sub_add_cancel _ _) (sub_add_cancel _ _)
  rw [eq_sub_iff_add_eq, ← hf.add, hback]

theorem velocityAt (hf : Linear f) (hm : c.length = m + 2) {j : Nat} (hj : j < m + 1) :
    f (velocityAt c j) = (f (c.getD (j + 1) Point.origin) - f (c.getD j Point.origin)) *
      ((m + 1 : Nat) : α) := by
  have hfirst : j < c.length := by omega
  have hsecond : j + 1 < c.length := by omega
  simp only [Curve.velocityAt, List.getElem?_eq_getElem hfirst, List.getElem?_eq_getElem hsecond,
    List.getD_eq_getElem?_getD, Option.getD_some, hf.mul, hf.sub, hm]
  rfl

theorem eval_derivative (hf : Linear f) (hm : c.length = m + 2) (t : α) :
    (derivative (polynomial f c)).eval t =
      ∑ j ∈ range (m + 1), f (Curve.velocityAt c j) * (bernsteinPolynomial α m j).eval t := by
  have hdegree : c.length - 1 = m + 1 := by omega
  simp only [polynomial, Polynomial.derivative_sum, Polynomial.derivative_C_mul, hdegree]
  rw [hm, sum_mul_derivative_bernstein fun i => f (c.getD i Point.origin),
    Polynomial.eval_finsetSum]
  refine Finset.sum_congr rfl fun j hj => ?_
  rw [hf.velocityAt hm (Finset.mem_range.1 hj), Polynomial.eval_mul, Polynomial.eval_C]

/-- As seen from `p`, the curve is the curve of the control points as seen from `p`. -/
theorem offsetAt (hf : Linear f) (hm : c.length = m + 2) (p : Point α) (t : α) :
    f (Curve.pointAt c t - p) =
      ∑ i ∈ range (m + 2), f (offsetAt p c i) * (bernsteinPolynomial α (m + 1) i).eval t := by
  have hdegree : c.length - 1 = m + 1 := by omega
  have hwhole := sum_eval_bernstein (m + 1) t
  rw [hf.sub, hf.pointAt, ← mul_one (f p), ← hwhole, Finset.mul_sum, hdegree, hm,
    ← Finset.sum_sub_distrib]
  refine Finset.sum_congr rfl fun i hi => ?_
  have hi : i < c.length := hm ▸ Finset.mem_range.1 hi
  rw [Curve.offsetAt, List.getD_eq_getElem?_getD, List.getElem?_eq_getElem hi, Option.elim_some,
    Option.getD_some, hf.sub, sub_mul]

end Linear

/-! ## The product of two curves -/

theorem binomial_eq_choose (n k : Nat) : (binomial n k : α) = (n.choose k : α) := by
  unfold binomial
  split
  · rename_i h
    rw [Nat.choose_eq_zero_of_lt h, Nat.cast_zero]
  · rename_i h
    rw [coefficient_eq_choose]
    rcases min_choice k (n - k) with hk | hk <;> rw [hk]
    exact congrArg Nat.cast (Nat.choose_symm (not_lt.1 h))

theorem eval_bernstein_mul {n m i j : Nat} (hi : i ≤ n) (hj : j ≤ m) (t : α) :
    (bernsteinPolynomial α n i).eval t * (bernsteinPolynomial α m j).eval t =
      binomial m j * binomial n i / binomial (n + m) (i + j) *
        (bernsteinPolynomial α (n + m) (i + j)).eval t := by
  have hchoose : ((n + m).choose (i + j) : α) ≠ 0 :=
    Nat.cast_ne_zero.2 (Nat.choose_pos (Nat.add_le_add hi hj)).ne'
  have hrest : n + m - (i + j) = (n - i) + (m - j) := by omega
  simp only [binomial_eq_choose, bernsteinPolynomial, Polynomial.eval_mul, Polynomial.eval_pow,
    Polynomial.eval_sub, Polynomial.eval_natCast, Polynomial.eval_X, Polynomial.eval_one, hrest]
  field_simp
  ring

/-- A sum over a rectangle, by diagonals. -/
theorem sum_sum_eq_sum_diagonals (F : Nat → Nat → α) (n m : Nat) :
    ∑ i ∈ range (n + 1), ∑ j ∈ range (m + 1), F i j =
      ∑ k ∈ range (n + m + 1), ∑ i ∈ Finset.Ico (k - m) (min k n + 1), F i (k - i) := by
  rw [Finset.sum_sigma', Finset.sum_sigma']
  refine Finset.sum_nbij' (fun x => ⟨x.1 + x.2, x.1⟩) (fun y => ⟨y.2, y.1 - y.2⟩) ?_ ?_ ?_ ?_ ?_
  · rintro ⟨i, j⟩ h
    simp only [Finset.mem_sigma, Finset.mem_range, Finset.mem_Ico] at h ⊢
    omega
  · rintro ⟨k, i⟩ h
    simp only [Finset.mem_sigma, Finset.mem_range, Finset.mem_Ico] at h ⊢
    omega
  · rintro ⟨i, j⟩ _
    simp
  · rintro ⟨k, i⟩ h
    simp only [Finset.mem_sigma, Finset.mem_range, Finset.mem_Ico] at h
    have hk : i + (k - i) = k := by omega
    simp [hk]
  · rintro ⟨i, j⟩ _
    simp

theorem foldl_range'_add (g : Nat → α) (s n : Nat) :
    (List.range' s n).foldl (fun sum i => sum + g i) 0 = ∑ i ∈ Finset.Ico s (s + n), g i := by
  rw [Finset.sum_Ico_eq_sum_range, Nat.add_sub_cancel_left]
  induction n with
  | zero => rfl
  | succ n ih =>
    rw [List.range'_1_concat, List.foldl_append, ih, Finset.sum_range_succ]
    rfl

/-- The slope by the shares of the products of control points. -/
theorem slope_eq_sum (hm : c.length = m + 2) (p : Point α) (t : α) : slope p c t =
    ∑ i ∈ range (m + 2), ∑ j ∈ range (m + 1), (velocityAt c j).dot (offsetAt p c i) *
      ((bernsteinPolynomial α (m + 1) i).eval t * (bernsteinPolynomial α m j).eval t) := by
  simp only [slope, velocity, Point.dot, linear_x.offsetAt hm, linear_y.offsetAt hm,
    linear_x.eval_derivative hm, linear_y.eval_derivative hm, Finset.sum_mul_sum,
    ← Finset.sum_add_distrib]
  refine Finset.sum_congr rfl fun i _ => Finset.sum_congr rfl fun j _ => ?_
  ring

theorem slope_eq_sum_slopeCoefficient (hm : c.length = m + 2) (p : Point α) (t : α) :
    slope p c t = ∑ k ∈ range (m + 1 + m + 1),
      slopeCoefficient p c k * (bernsteinPolynomial α (m + 1 + m) k).eval t := by
  rw [slope_eq_sum hm, sum_sum_eq_sum_diagonals fun i j => (velocityAt c j).dot (offsetAt p c i) *
    ((bernsteinPolynomial α (m + 1) i).eval t * (bernsteinPolynomial α m j).eval t)]
  refine Finset.sum_congr rfl fun k hk => ?_
  have hk := Finset.mem_range.1 hk
  have hdegree : c.length - 1 = m + 1 := by omega
  have hrange : k - m + (min k (m + 1) + 1 - (k - m)) = min k (m + 1) + 1 := by omega
  simp only [slopeCoefficient, hdegree, Nat.add_sub_cancel]
  rw [foldl_range'_add, hrange, Finset.sum_mul]
  refine Finset.sum_congr rfl fun i hi => ?_
  have hi := Finset.mem_Ico.1 hi
  have hsum : i + (k - i) = k := by omega
  rw [eval_bernstein_mul (by omega) (by omega), hsum, mul_assoc]

/-! ## The graph of the slope -/

theorem length_slopeCurve (hm : c.length = m + 2) (p : Point α) :
    (slopeCurve p c).length = m + 1 + m + 1 := by
  simp [slopeCurve, hm]

theorem getD_slopeCurve (hm : c.length = m + 2) (p : Point α) {k : Nat} (hk : k < m + 1 + m + 1) :
    (slopeCurve p c).getD k Point.origin =
      ⟨k / ((m + 1 + m : Nat) : α), slopeCoefficient p c k⟩ := by
  have hdegree : c.length - 1 = m + 1 := by omega
  simp only [slopeCurve, hdegree, Nat.add_sub_cancel, List.getD_eq_getElem?_getD,
    List.getElem?_map, List.getElem?_range hk, Option.map_some, Option.getD_some]

/-- The shares average the evenly spaced parameters to the parameter itself. -/
theorem sum_div_mul_bernstein {n : Nat} (hn : n ≠ 0) (t : α) :
    ∑ k ∈ range (n + 1), (k / n : α) * (bernsteinPolynomial α n k).eval t = t := by
  have hn : (n : α) ≠ 0 := Nat.cast_ne_zero.2 hn
  have hmean := congrArg (eval t) (bernsteinPolynomial.sum_smul α n)
  simp only [nsmul_eq_mul, Polynomial.eval_finsetSum, Polynomial.eval_mul, Polynomial.eval_natCast,
    Polynomial.eval_X] at hmean
  refine mul_left_cancel₀ hn ?_
  rw [← hmean, Finset.mul_sum]
  refine Finset.sum_congr rfl fun k _ => ?_
  field_simp

/-- The curve whose zeros are isolated is the graph of the slope. -/
theorem pointAt_slopeCurve (h : 2 ≤ c.length) (p : Point α) (t : α) :
    pointAt (slopeCurve p c) t = ⟨t, slope p c t⟩ := by
  obtain ⟨m, hm⟩ : ∃ m, c.length = m + 2 := ⟨c.length - 2, by omega⟩
  have hlength := length_slopeCurve hm p
  have hdegree : m + 1 + m ≠ 0 := by omega
  have hx : (pointAt (slopeCurve p c) t).x = t := by
    rw [linear_x.pointAt, hlength, Nat.add_sub_cancel]
    refine (Finset.sum_congr rfl fun k hk => ?_).trans (sum_div_mul_bernstein hdegree t)
    rw [getD_slopeCurve hm p (Finset.mem_range.1 hk)]
  have hy : (pointAt (slopeCurve p c) t).y = slope p c t := by
    rw [linear_y.pointAt, hlength, Nat.add_sub_cancel, slope_eq_sum_slopeCoefficient hm]
    refine Finset.sum_congr rfl fun k hk => ?_
    rw [getD_slopeCurve hm p (Finset.mem_range.1 hk)]
  exact congrArg₂ Point.mk hx hy

end Curve

end Patchbay
