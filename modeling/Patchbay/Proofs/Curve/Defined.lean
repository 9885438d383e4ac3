import Patchbay.Proofs.Curve.Zeros

/-!
# Nothing undefined on the way to the nearest point

There are no counts below zero, no entries beyond the end of a list, and no quotients by zero. The
definitions on curves subtract, look up and divide as if there always were. Here the same computations
are written with operations that give nothing where nothing is defined (`less?`, `quotient?`,
look-ups), and they give what the definitions give: the control points of the slope
(`slopeCurve?_eq`), which are entered term by term into a table, and the isolated zeros of any curve
(`zeros?_eq`).

The control points of the slope are then the Bernstein coefficients of the product of the offset from
the point and the velocity (`slopeCurve_represents`).
-/

namespace Patchbay

open Finset (range)

namespace Scalar

/-- The difference of two counts, if it is one. -/
def less? (n k : Nat) : Option Nat := if k ≤ n then some (n - k) else none

theorem less?_eq {n k : Nat} (h : k ≤ n) : less? n k = some (n - k) := if_pos h

/-- The quotient by a number other than zero. -/
def quotient? {α : Type} [Scalar α] (a b : α) : Option α :=
  if Same b 0 then none else some (a / b)

theorem quotient?_eq {α : Type} [ExactScalar α] {b : α} (hb : b ≠ 0) (a : α) :
    quotient? a b = some (a / b) :=
  if_neg fun hsame => hb (le_antisymm hsame.1 hsame.2)

end Scalar

namespace Curve

open Scalar (less? quotient? less?_eq quotient?_eq)

/-! ## Entering the slope into a table -/

section Tables

variable {α : Type} [Scalar α]

/-- The binomial coefficient as a running product of quotients. -/
def coefficient? (n : Nat) : Nat → Option α
  | 0 => some 1
  | k + 1 => do
    let factor ← less? n k
    quotient? ((← coefficient? n k) * factor) (k + 1 : Nat)

/-- The binomial coefficient by the shorter of the two products. -/
def binomial? (n k : Nat) : Option α :=
  if n < k then some 0
  else do
    let rest ← less? n k
    coefficient? n (min k rest)

def offsets (p : Point α) (c : Curve α) : Curve α := c.map (· - p)

/-- The control points of the derivative, from neighbouring control points. -/
def velocities (n : Nat) (c : Curve α) : Curve α :=
  List.zipWith (fun a b => (b - a) * (n : α)) c c.tail

/-- The term of the coefficient `k` to which the control point `i` contributes. -/
def term? (p : Point α) (c : Curve α) (n m k i : Nat) : Option α := do
  let j ← less? k i
  let share ← quotient? ((← binomial? m j) * (← binomial? n i)) (← binomial? (n + m) k)
  return (← (velocities n c)[j]?).dot (← (offsets p c)[i]?) * share

/-- Add to the height of an entry of a table. -/
def raise? (w : Curve α) (k : Nat) (y : α) : Option (Curve α) :=
  if k < w.length then some (w.modify k fun q => ⟨q.x, q.y + y⟩) else none

/-- The control points of the slope: their parameters, and then their heights, term by term. -/
def slopeCurve? (p : Point α) (c : Curve α) : Option (Curve α) := do
  let n ← less? c.length 1
  let m ← less? n 1
  let level ← (List.range (n + m + 1)).mapM fun k : Nat => do
    return (⟨← quotient? (k : α) (n + m : Nat), 0⟩ : Point α)
  (List.range (n + m + 1)).foldlM
    (fun w k => (List.range' (k - m) (min k n + 1 - (k - m))).foldlM
      (fun w i => do raise? w k (← term? p c n m k i)) w)
    level

end Tables

variable {α : Type} [ExactScalar α] {p : Point α} {c w : Curve α} {m : Nat} {tolerance : α}

theorem coefficient?_eq {n k : Nat} (h : k ≤ n) :
    (coefficient? n k : Option α) = some (coefficient n k) := by
  induction k with
  | zero => rfl
  | succ k ih =>
    have hk : k ≤ n := Nat.le_of_succ_le h
    have hpos : ((k + 1 : Nat) : α) ≠ 0 := Nat.cast_ne_zero.2 k.succ_ne_zero
    simp only [coefficient?, ih hk, less?_eq hk, Option.bind_eq_bind, Option.bind_some,
      quotient?_eq hpos]
    rfl

theorem binomial?_eq (n k : Nat) : (binomial? n k : Option α) = some (binomial n k) := by
  unfold binomial? binomial
  split
  · rfl
  · rename_i h
    have hk : k ≤ n := not_lt.1 h
    rw [less?_eq hk]
    exact coefficient?_eq ((min_le_left k _).trans hk)

theorem getElem?_offsets {i : Nat} (h : i < c.length) :
    (offsets p c)[i]? = some (offsetAt p c i) := by
  simp [offsets, offsetAt, List.getElem?_eq_getElem h]

theorem getElem?_velocities {j : Nat} (h : j + 1 < c.length) :
    (velocities (c.length - 1) c)[j]? = some (velocityAt c j) := by
  have hj : j < c.length := Nat.lt_of_succ_lt h
  simp [velocities, velocityAt, List.getElem?_zipWith, List.getElem?_eq_getElem h,
    List.getElem?_eq_getElem hj]

/-- The same term where it is defined. -/
def term (p : Point α) (c : Curve α) (n m k i : Nat) : α :=
  (velocityAt c (k - i)).dot (offsetAt p c i) *
    (binomial m (k - i) * binomial n i / binomial (n + m) k)

/-- A term is defined for every control point of the curve that meets one of the derivative. -/
theorem term?_eq (hm : c.length = m + 2) {k i : Nat} (hi : k - m ≤ i) (hik : i ≤ k)
    (hin : i ≤ m + 1) : term? p c (m + 1) m k i = some (term p c (m + 1) m k i) := by
  have hdegree : c.length - 1 = m + 1 := by omega
  have hoffset := getElem?_offsets (p := p) (c := c) (i := i) (by omega)
  have hvelocity := getElem?_velocities (c := c) (j := k - i) (by omega)
  have hchoose : (binomial (m + 1 + m) k : α) ≠ 0 := by
    rw [binomial_eq_choose]
    exact Nat.cast_ne_zero.2 (Nat.choose_pos (by omega)).ne'
  rw [hdegree] at hvelocity
  simp only [term?, less?_eq hik, binomial?_eq, quotient?_eq hchoose, hoffset, hvelocity,
    Option.bind_eq_bind, Option.bind_some]
  rfl

/-! ## Filling the table -/

theorem raise?_eq {k : Nat} (hk : k < w.length) (y : α) :
    raise? w k y = some (w.modify k fun q => ⟨q.x, q.y + y⟩) := if_pos hk

/-- Terms that are added one by one to an entry are added in a running sum. -/
theorem foldlM_raise? {k : Nat} (hk : k < w.length) {s : Nat → Option α} {g : Nat → α}
    (is : List Nat) (hs : ∀ i ∈ is, s i = some (g i)) :
    is.foldlM (fun w i => do raise? w k (← s i)) w =
      some (w.modify k fun q => ⟨q.x, is.foldl (fun sum i => sum + g i) q.y⟩) := by
  induction is generalizing w with
  | nil => exact congrArg some (List.modify_id k w).symm
  | cons i is ih =>
    have hnext : k < (w.modify k fun q => ⟨q.x, q.y + g i⟩).length := by
      rwa [List.length_modify]
    have hrest := ih hnext fun j hj => hs j (List.mem_cons_of_mem i hj)
    rw [List.modify_modify_eq] at hrest
    rw [List.foldlM_cons, hs i List.mem_cons_self, Option.bind_eq_bind, Option.bind_eq_bind,
      Option.bind_some, raise?_eq hk, Option.bind_some]
    exact hrest

/-- The table when the entries before `K` are filled. -/
def filled (p : Point α) (c : Curve α) (n m K : Nat) : Curve α :=
  (List.range (n + m + 1)).map fun k : Nat =>
    ⟨k / ((n + m : Nat) : α), if k < K then slopeCoefficient p c k else 0⟩

theorem slopeCoefficient_eq_foldl (hm : c.length = m + 2) (p : Point α) (k : Nat) :
    slopeCoefficient p c k =
      (List.range' (k - m) (min k (m + 1) + 1 - (k - m))).foldl
        (fun sum i => sum + term p c (m + 1) m k i) 0 := by
  have hdegree : c.length - 1 = m + 1 := by omega
  simp only [slopeCoefficient, hdegree, Nat.add_sub_cancel]
  rfl

/-- Filling the next entry leaves the others alone. -/
theorem modify_filled (hm : c.length = m + 2) (K : Nat) :
    (filled p c (m + 1) m K).modify K (fun q =>
        ⟨q.x, (List.range' (K - m) (min K (m + 1) + 1 - (K - m))).foldl
          (fun sum i => sum + term p c (m + 1) m K i) q.y⟩) =
      filled p c (m + 1) m (K + 1) := by
  apply List.ext_getElem?
  intro k
  simp only [filled, List.getElem?_modify, List.getElem?_map]
  by_cases hk : k < m + 1 + m + 1
  · rw [List.getElem?_range hk, Option.map_some, Option.map_some]
    by_cases hK : K = k
    · subst hK
      simp [slopeCoefficient_eq_foldl hm]
    · have hlt : k < K + 1 ↔ k < K := by omega
      simp only [hlt, if_neg hK]
      rfl
  · rw [List.getElem?_eq_none (by simpa using hk)]
    rfl

/-- Filling entry after entry fills those before the next one. -/
theorem foldlM_filled (hm : c.length = m + 2) {K : Nat} (hK : K ≤ m + 1 + m + 1) :
    (List.range K).foldlM
        (fun w k => (List.range' (k - m) (min k (m + 1) + 1 - (k - m))).foldlM
          (fun w i => do raise? w k (← term? p c (m + 1) m k i)) w)
        (filled p c (m + 1) m 0) =
      some (filled p c (m + 1) m K) := by
  induction K with
  | zero => rfl
  | succ K ih =>
    have hentry : K < (filled p c (m + 1) m K).length := by
      simpa [filled] using hK
    have hterms : ∀ i ∈ List.range' (K - m) (min K (m + 1) + 1 - (K - m)),
        term? p c (m + 1) m K i = some (term p c (m + 1) m K i) := by
      intro i hi
      obtain ⟨hlow, hhigh⟩ := List.mem_range'_1.1 hi
      exact term?_eq hm hlow (by omega) (by omega)
    rw [List.range_succ, List.foldlM_append, ih (by omega), Option.bind_eq_bind, Option.bind_some,
      List.foldlM_cons, foldlM_raise? hentry _ hterms, modify_filled hm]
    rfl

/-- The control points of the slope are defined for a curve of at least two control points. -/
theorem slopeCurve?_eq (hm : c.length = m + 2) (p : Point α) :
    slopeCurve? p c = some (slopeCurve p c) := by
  have hdegree : c.length - 1 = m + 1 := by omega
  have hpos : ((m + 1 + m : Nat) : α) ≠ 0 := Nat.cast_ne_zero.2 (by omega)
  have hlevel : (List.range (m + 1 + m + 1)).mapM (fun k : Nat => do
      return (⟨← quotient? (k : α) (m + 1 + m : Nat), 0⟩ : Point α)) =
        some (filled p c (m + 1) m 0) := by
    simp only [quotient?_eq hpos, filled, Nat.not_lt_zero, if_false]
    exact List.mapM_pure
  have hfull : filled p c (m + 1) m (m + 1 + m + 1) = slopeCurve p c := by
    simp only [filled, slopeCurve, hdegree, Nat.add_sub_cancel]
    apply List.map_congr_left
    intro k hk
    rw [if_pos (List.mem_range.1 hk)]
  have hn : less? c.length 1 = some (m + 1) := by
    rw [less?_eq (by omega), hdegree]
  have hpred : less? (m + 1) 1 = some m := less?_eq (Nat.succ_le_succ m.zero_le)
  rw [slopeCurve?, hn]
  simp only [Option.bind_eq_bind, Option.bind_some, hpred] at hlevel ⊢
  rw [hlevel, Option.bind_some]
  exact (foldlM_filled hm le_rfl).trans (congrArg some hfull)

/-- **The slope in the Bernstein basis.** For a curve of `n + 1` control points, at least two, the
control points of the slope are defined, and there are `2 n` of them. Their heights are the
coefficients of the product of the offset from `p` and the velocity of the curve, and their
parameters those of the identity. -/
theorem slopeCurve_represents {n : Nat} (hn : c.length = n + 1) (hpos : 1 ≤ n) (p : Point α) :
    slopeCurve? p c = some (slopeCurve p c) ∧ (slopeCurve p c).length = 2 * n ∧
      ∀ t,
        ∑ k ∈ range (2 * n), ((slopeCurve p c).getD k Point.origin).y *
            (bernsteinPolynomial α (2 * n - 1) k).eval t =
          (pointAt c t - p).dot (velocity c t) ∧
        ∑ k ∈ range (2 * n), ((slopeCurve p c).getD k Point.origin).x *
            (bernsteinPolynomial α (2 * n - 1) k).eval t = t := by
  obtain ⟨m, rfl⟩ := Nat.exists_eq_add_of_le' hpos
  have hm : c.length = m + 2 := hn
  have hlength : (slopeCurve p c).length = 2 * (m + 1) := by
    rw [length_slopeCurve hm]
    omega
  refine ⟨slopeCurve?_eq hm p, hlength, fun t => ?_⟩
  have hgraph := pointAt_slopeCurve (c := c) (by omega) p t
  constructor
  · rw [← hlength, ← linear_y.pointAt, hgraph]
    rfl
  · rw [← hlength, ← linear_x.pointAt, hgraph]

/-- A curve that turns twice. -/
def winding : Curve ℚ := [⟨0, 0⟩, ⟨100, 0⟩, ⟨0, 100⟩, ⟨100, 100⟩]

theorem slopeCurve_represents_winding :
    winding.length = 3 + 1 ∧ slopeCurve? ⟨80, 30⟩ winding = some (slopeCurve ⟨80, 30⟩ winding) ∧
      (slopeCurve ⟨80, 30⟩ winding).length = 6 ∧
        ∑ k ∈ range 6, ((slopeCurve ⟨80, 30⟩ winding).getD k Point.origin).y *
            (bernsteinPolynomial ℚ 5 k).eval (1 / 3) =
          (pointAt winding (1 / 3) - ⟨80, 30⟩).dot (velocity winding (1 / 3)) := by
  obtain ⟨hdefined, hlength, hslope⟩ :=
    slopeCurve_represents (c := winding) (n := 3) rfl (by decide) ⟨80, 30⟩
  exact ⟨rfl, hdefined, hlength, (hslope (1 / 3)).1⟩

/-! ## Isolating zeros -/

section Zeros

variable {α : Type} [Scalar α]

/-- Where the chord between two points meets the axis. -/
def chordZero? (first last : Point α) : Option α :=
  quotient? ((last.x - first.x) * first.y - (last.y - first.y) * first.x) (-(last.y - first.y))

/-- Whether the two parallels to the chord meet the axis within the tolerance of each other. -/
def flatEnough? (first last : Point α) (inner : Curve α) (tolerance : α) : Option Bool := do
  let c := first.x * last.y - last.x * first.y
  let det := -(first.y - last.y)
  let (above, below) := bulge first last inner
  return Scalar.abs ((← quotient? (c - above) det) - (← quotient? (c - below) det)) < tolerance

/-- Whether a part counts as straight. Only parts with one crossing are tested for flatness. -/
def straight? (count : Nat) (first last : Point α) (inner : Curve α) (tolerance : α) :
    Option Bool :=
  if count = 0 then flatEnough? first last inner tolerance else some false

/-- The zeros of a curve over its parameter, with `depth` halvings left. -/
def zeros? (tolerance : α) : Nat → Curve α → Option (List α)
  | depth, w =>
    match crossings w, w.head?, w.getLast? with
    | 0, _, _ | _, none, _ | _, _, none => some []
    | count + 1, some first, some last =>
      match depth with
      | 0 => some [Scalar.half (first.x + last.x)]
      | depth + 1 => do
        if ← straight? count first last w.tail.dropLast tolerance then
          return [← chordZero? first last]
        else
          let (left, right) := split w (Scalar.half 1)
          return (← zeros? tolerance depth left) ++ (← zeros? tolerance depth right)

end Zeros

/-- A single crossing leads to the other side of the axis. -/
theorem sides_ne {first last : Point α} (hfirst : w.head? = some first)
    (hlast : w.getLast? = some last) (hone : crossings w = 1) : ¬ (first.y < 0 ↔ last.y < 0) := by
  have hne : w ≠ [] := by
    intro hnil
    simp [hnil] at hfirst
  have hends := (even_crossings_iff hne).not.1 (by rw [hone]; decide)
  rw [List.head?_eq_some_head hne, Option.some.injEq] at hfirst
  rw [List.getLast?_eq_some_getLast hne, Option.some.injEq] at hlast
  rwa [hfirst, hlast] at hends

/-- The chord of a part with a single crossing is not level. -/
theorem y_ne_of_single {first last : Point α} {count : Nat} (hfirst : w.head? = some first)
    (hlast : w.getLast? = some last) (hcount : crossings w = count + 1) (hone : count = 0) :
    last.y ≠ first.y := by
  subst hone
  exact fun heq => sides_ne hfirst hlast hcount (by rw [heq])

theorem chordZero?_eq {first last : Point α} (hrise : last.y ≠ first.y) :
    chordZero? first last = some (chordZero first last) :=
  quotient?_eq (neg_ne_zero.2 (sub_ne_zero.2 hrise)) _

theorem flatEnough?_eq {first last : Point α} (hrise : last.y ≠ first.y) (inner : Curve α) :
    flatEnough? first last inner tolerance =
      some (decide (FlatEnough first last inner tolerance)) := by
  have hdet : -(first.y - last.y) ≠ 0 := neg_ne_zero.2 (sub_ne_zero.2 hrise.symm)
  simp only [flatEnough?, quotient?_eq hdet, Option.bind_eq_bind, Option.bind_some]
  rfl

theorem straight?_eq {first last : Point α} {count : Nat}
    (hrise : count = 0 → last.y ≠ first.y) (inner : Curve α) :
    straight? count first last inner tolerance =
      some (decide (count = 0 ∧ FlatEnough first last inner tolerance)) := by
  unfold straight?
  split
  · rename_i hzero
    rw [flatEnough?_eq (hrise hzero)]
    simp [hzero]
  · rename_i hmore
    simp [hmore]

/-- The isolation of zeros divides by zero nowhere. -/
theorem zeros?_eq (tolerance : α) (depth : Nat) (w : Curve α) :
    zeros? tolerance depth w = some (zeros tolerance depth w) := by
  fun_induction zeros tolerance depth w with
  | case1 depth w hnone => rw [zeros?, hnone]
  | case2 depth w hhead hsome =>
    obtain rfl := List.head?_eq_none_iff.1 hhead
    exact absurd rfl hsome
  | case3 depth w hlast hsome =>
    obtain rfl := List.getLast?_eq_none_iff.1 hlast
    exact absurd rfl hsome
  | case4 w count first last hlast hhead hcount => rw [zeros?, hcount, hhead, hlast]
  | case5 w count first last hlast hhead hcount depth hflat =>
    have hrise := y_ne_of_single hhead hlast hcount hflat.1
    rw [zeros?, hcount, hhead, hlast]
    simp [straight?_eq fun _ => hrise, chordZero?_eq hrise, hflat]
  | case6 w count first last hlast hhead hcount depth hflat left right hsplit ihleft ihright =>
    have hrise := y_ne_of_single hhead hlast hcount
    rw [zeros?, hcount, hhead, hlast]
    simp [straight?_eq hrise, hflat, hsplit, ihleft, ihright]

end Curve

end Patchbay
