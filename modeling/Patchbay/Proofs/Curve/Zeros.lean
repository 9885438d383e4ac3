import Mathlib.Topology.Algebra.Order.Field
import Mathlib.Topology.Algebra.Polynomial
import Patchbay.Proofs.Curve.Halving
import Patchbay.Proofs.Curve.Slope

/-!
# No zero is lost

Where the slope of the distance changes its sign, the isolation of zeros finds a parameter close by
(`exists_mem_zeros`). The halving carries a curve over its parameter that is the graph of a function
(`Traces`), together with a zero of the function near which it takes negative values, arbitrarily
close by and on the part that is being searched (`Touches`). Both pass to one of the halves, also
when the zero is the place of the cut.

A part without crossings is not such a part, for between control points on one side of the axis the
graph stays on that side. On a part with one crossing the graph lies in the strip between the two
parallels to the chord, so that the zero is no further from the zero of the chord than the strip is
wide on the axis.
-/

namespace Patchbay

namespace Curve

variable {α : Type} [ExactScalar α] {f : α → α} {w : Curve α} {a b t k tolerance : α}

/-! ## Changes of sign -/

/-- The function has opposite signs before and after `t`, arbitrarily close to it. -/
def ChangesSign (f : α → α) (t : α) : Prop :=
  ∀ ε > 0, ∃ s s', t - ε < s ∧ s < t ∧ t < s' ∧ s' < t + ε ∧ f s * f s' < 0

/-- `t` is a zero, and arbitrarily close to it there are negative values between `a` and `b`. -/
structure Touches (f : α → α) (a b t : α) : Prop where
  zero : f t = 0
  below : ∀ ε > 0, ∃ s ∈ Set.Icc a b, |s - t| < ε ∧ f s < 0

/-- A polynomial is zero where it changes its sign. -/
theorem ChangesSign.eval_eq_zero {P : Polynomial α} (h : ChangesSign (fun s => P.eval s) t) :
    P.eval t = 0 := by
  let _ : TopologicalSpace α := Preorder.topology α
  have _ : OrderTopology α := ⟨rfl⟩
  by_contra hne
  -- near a value that is not zero, all values have its sign
  have hpos : 0 < P.eval t * P.eval t := mul_self_pos.2 hne
  have hnear : ∀ᶠ s in nhds t, 0 < P.eval s * P.eval t :=
    (P.continuous.mul continuous_const).continuousAt.eventually (lt_mem_nhds hpos)
  obtain ⟨ε, hε, hball⟩ := (nhds_basis_abs_sub_lt t).eventually_iff.1 hnear
  obtain ⟨s, s', hs, hst, hts', hs', hneg⟩ := h ε hε
  have hsame := hball (x := s) (abs_sub_lt_iff.2 ⟨by linarith, by linarith⟩)
  have hsame' := hball (x := s') (abs_sub_lt_iff.2 ⟨by linarith, by linarith⟩)
  nlinarith [mul_pos hsame hsame', mul_neg_of_neg_of_pos hneg hpos]

theorem ChangesSign.touches (h : ChangesSign f t) (hzero : f t = 0) (ha : a < t) (hb : t < b) :
    Touches f a b t where
  zero := hzero
  below ε hε := by
    obtain ⟨s, s', hs, hst, hts', hs', hneg⟩ :=
      h (min ε (min (t - a) (b - t))) (lt_min hε (lt_min (sub_pos.2 ha) (sub_pos.2 hb)))
    have hε := min_le_left ε (min (t - a) (b - t))
    have hleft := (min_le_right ε _).trans (min_le_left (t - a) (b - t))
    have hright := (min_le_right ε _).trans (min_le_right (t - a) (b - t))
    rcases mul_neg_iff.1 hneg with ⟨-, hbelow⟩ | ⟨hbelow, -⟩
    · exact ⟨s', ⟨by linarith, by linarith⟩, abs_sub_lt_iff.2 ⟨by linarith, by linarith⟩, hbelow⟩
    · exact ⟨s, ⟨by linarith, by linarith⟩, abs_sub_lt_iff.2 ⟨by linarith, by linarith⟩, hbelow⟩

namespace Touches

theorem mem (h : Touches f a b t) : t ∈ Set.Icc a b := by
  constructor
  · refine le_of_forall_pos_le_add fun ε hε => ?_
    obtain ⟨s, hs, hnear, -⟩ := h.below ε hε
    linarith [hs.1, (abs_sub_lt_iff.1 hnear).1]
  · refine le_of_forall_pos_le_add fun ε hε => ?_
    obtain ⟨s, hs, hnear, -⟩ := h.below ε hε
    linarith [hs.2, (abs_sub_lt_iff.1 hnear).2]

theorem exists_of_not (hzero : f t = 0) (h : ¬ Touches f a b t) :
    ∃ ε > 0, ∀ s ∈ Set.Icc a b, |s - t| < ε → ¬ f s < 0 := by
  by_contra hnone
  push Not at hnone
  exact h ⟨hzero, hnone⟩

/-- The negative values near the zero are on one side of a cut, wherever the zero is. -/
theorem halve (h : Touches f a b t) (m : α) : Touches f a m t ∨ Touches f m b t := by
  by_contra hnone
  obtain ⟨hleft, hright⟩ := not_or.1 hnone
  obtain ⟨ε, hε, hleft⟩ := exists_of_not h.zero hleft
  obtain ⟨δ, hδ, hright⟩ := exists_of_not h.zero hright
  obtain ⟨s, hs, hnear, hneg⟩ := h.below (min ε δ) (lt_min hε hδ)
  rcases le_total s m with hsm | hms
  · exact hleft s ⟨hs.1, hsm⟩ (hnear.trans_le (min_le_left ..)) hneg
  · exact hright s ⟨hms, hs.2⟩ (hnear.trans_le (min_le_right ..)) hneg

end Touches

/-! ## Graphs -/

/-- The curve is the graph of the function from `a` to `b`. -/
structure Traces (f : α → α) (a b : α) (w : Curve α) : Prop where
  nonempty : w ≠ []
  pointAt_eq : ∀ u, pointAt w u = ⟨a + (b - a) * u, f (a + (b - a) * u)⟩

namespace Traces

theorem head_x (h : Traces f a b w) : (w.head h.nonempty).x = a := by
  rw [← linear_x.pointAt_zero h.nonempty, h.pointAt_eq, mul_zero, add_zero]

theorem getLast_x (h : Traces f a b w) : (w.getLast h.nonempty).x = b := by
  rw [← linear_x.pointAt_one h.nonempty, h.pointAt_eq, mul_one, add_sub_cancel]

/-- The graph from `a` to `b` is passed as the parameter goes from 0 to 1. -/
theorem exists_pointAt (h : Traces f a b w) (hab : a < b) (ht : t ∈ Set.Icc a b) :
    ∃ u, 0 ≤ u ∧ u ≤ 1 ∧ pointAt w u = ⟨t, f t⟩ := by
  have hwidth : 0 < b - a := sub_pos.2 hab
  refine ⟨(t - a) / (b - a), div_nonneg (sub_nonneg.2 ht.1) hwidth.le, ?_, ?_⟩
  · exact (div_le_one hwidth).2 (sub_le_sub_right ht.2 a)
  · rw [h.pointAt_eq, mul_div_cancel₀ _ hwidth.ne', add_sub_cancel]

/-- The graph is nowhere beyond all control points. -/
theorem le_of_forall_le {g : Point α → α} (h : Traces f a b w) (hab : a < b)
    (ht : t ∈ Set.Icc a b) (hg : Linear g) (hk : ∀ p ∈ w, g p ≤ k) : g ⟨t, f t⟩ ≤ k := by
  obtain ⟨u, h₀, h₁, hu⟩ := h.exists_pointAt hab ht
  exact hu ▸ hg.pointAt_le h.nonempty h₀ h₁ hk

theorem le_of_forall_ge {g : Point α → α} (h : Traces f a b w) (hab : a < b)
    (ht : t ∈ Set.Icc a b) (hg : Linear g) (hk : ∀ p ∈ w, k ≤ g p) : k ≤ g ⟨t, f t⟩ := by
  obtain ⟨u, h₀, h₁, hu⟩ := h.exists_pointAt hab ht
  exact hu ▸ hg.le_pointAt h.nonempty h₀ h₁ hk

/-- The parts of a graph are graphs, over the two halves. -/
theorem halve (h : Traces f a b w) :
    Traces f a ((a + b) / 2) (split w (Scalar.half 1)).1 ∧
      Traces f ((a + b) / 2) b (split w (Scalar.half 1)).2 := by
  obtain ⟨hleft, hright⟩ := length_split w (Scalar.half 1)
  have hpos := List.length_pos_of_ne_nil h.nonempty
  refine ⟨⟨List.ne_nil_of_length_pos (hleft ▸ hpos), fun u => ?_⟩,
    ⟨List.ne_nil_of_length_pos (hright ▸ hpos), fun u => ?_⟩⟩
  · have hplace : a + (b - a) * (1 / 2 * u) = a + ((a + b) / 2 - a) * u := by ring
    rw [(pointAt_split w _ u).1, h.pointAt_eq, Scalar.half_eq, hplace]
  · have hplace : a + (b - a) * (1 / 2 + (1 - 1 / 2) * u) =
        (a + b) / 2 + (b - (a + b) / 2) * u := by ring
    rw [(pointAt_split w _ u).2, h.pointAt_eq, Scalar.half_eq, hplace]

end Traces

/-! ## Crossings -/

/-- Without crossings, all control points are on the side of the first. -/
theorem lt_zero_iff_of_crossings_eq_zero (h : crossings w = 0) (hne : w ≠ []) :
    ∀ p ∈ w, (p.y < 0 ↔ (w.head hne).y < 0) := by
  induction w with
  | nil => exact absurd rfl hne
  | cons p rest ih =>
    intro r hr
    rcases List.mem_cons.1 hr with rfl | hr
    · rfl
    cases rest with
    | nil => cases hr
    | cons q rest =>
      obtain ⟨hstep, hrest⟩ := Nat.add_eq_zero_iff.1 h
      have hpq : p.y < 0 ↔ q.y < 0 := by simpa using hstep
      exact (ih hrest (List.cons_ne_nil q rest) r hr).trans hpq.symm

/-- An even number of crossings leads back to the side of the first control point. -/
theorem even_crossings_iff (hne : w ≠ []) :
    Even (crossings w) ↔ ((w.head hne).y < 0 ↔ (w.getLast hne).y < 0) := by
  induction w with
  | nil => exact absurd rfl hne
  | cons p rest ih =>
    cases rest with
    | nil => simp [crossings]
    | cons q rest =>
      have ih := ih (List.cons_ne_nil q rest)
      rw [List.head_cons] at ih
      rw [crossings, Nat.even_add, ih, List.head_cons, List.getLast_cons (List.cons_ne_nil q rest)]
      by_cases hp : p.y < 0 <;> by_cases hq : q.y < 0 <;> simp [hp, hq]

/-- The part of a graph around a zero with negative values close by has crossings. -/
theorem Traces.crossings_ne_zero (hw : Traces f a b w) (hab : a < b) (ht : Touches f a b t) :
    crossings w ≠ 0 := by
  intro hnone
  have hside := lt_zero_iff_of_crossings_eq_zero hnone hw.nonempty
  by_cases hneg : (w.head hw.nonempty).y < 0
  · -- the highest control point bounds the graph below the axis
    obtain ⟨p, hp, hmax⟩ := w.toFinset.exists_max_image Point.y
      (List.toFinset_nonempty_iff w |>.2 hw.nonempty)
    have hp := List.mem_toFinset.1 hp
    have htop := hw.le_of_forall_le hab ht.mem linear_y fun q hq => hmax q (List.mem_toFinset.2 hq)
    exact absurd ((hside p hp).2 hneg) (not_lt.2 (ht.zero ▸ htop))
  · obtain ⟨s, hs, -, hbelow⟩ := ht.below 1 one_pos
    have hbottom := hw.le_of_forall_ge hab hs linear_y fun q hq =>
      not_lt.1 fun hlt => hneg ((hside q hq).1 hlt)
    exact absurd hbelow (not_lt.2 hbottom)

/-! ## Flat parts -/

/-- The signed distance from the chord, up to a common factor. -/
def height (first last p : Point α) : α :=
  (first.y - last.y) * p.x + (last.x - first.x) * p.y + (first.x * last.y - last.x * first.y)

/-- One more control point widens the strip so that it reaches there too. -/
theorem bulge_append_singleton (first last : Point α) {inner : Curve α} (p : Point α)
    (hle : (bulge first last inner).2 ≤ (bulge first last inner).1) :
    ((bulge first last (inner ++ [p])).2 ≤ (bulge first last inner).2 ∧
      (bulge first last inner).1 ≤ (bulge first last (inner ++ [p])).1) ∧
    (bulge first last (inner ++ [p])).2 ≤ height first last p ∧
      height first last p ≤ (bulge first last (inner ++ [p])).1 := by
  have hstep : bulge first last (inner ++ [p]) =
      if (bulge first last inner).1 < height first last p then
        (height first last p, (bulge first last inner).2)
      else if height first last p < (bulge first last inner).2 then
        ((bulge first last inner).1, height first last p)
      else bulge first last inner := by
    rw [bulge, List.foldl_append]
    rfl
  rw [hstep]
  split_ifs with hhigh hlow
  · exact ⟨⟨le_rfl, hhigh.le⟩, hle.trans hhigh.le, le_rfl⟩
  · exact ⟨⟨hlow.le, le_rfl⟩, le_rfl, not_lt.1 hhigh⟩
  · exact ⟨⟨le_rfl, le_rfl⟩, not_lt.1 hlow, not_lt.1 hhigh⟩

/-- The strip reaches from the chord to all control points. -/
theorem height_mem_bulge (first last : Point α) (inner : Curve α) :
    ((bulge first last inner).2 ≤ 0 ∧ 0 ≤ (bulge first last inner).1) ∧
      ∀ p ∈ inner, (bulge first last inner).2 ≤ height first last p ∧
        height first last p ≤ (bulge first last inner).1 := by
  induction inner using List.reverseRecOn with
  | nil => exact ⟨⟨le_rfl, le_rfl⟩, nofun⟩
  | append_singleton inner p ih =>
    obtain ⟨⟨hbelow, habove⟩, hinner⟩ := ih
    obtain ⟨⟨hlow, hhigh⟩, hp⟩ := bulge_append_singleton first last p (hbelow.trans habove)
    refine ⟨⟨hlow.trans hbelow, habove.trans hhigh⟩, fun q hq => ?_⟩
    rcases List.mem_append.1 hq with hq | hq
    · exact ⟨hlow.trans (hinner q hq).1, (hinner q hq).2.trans hhigh⟩
    · rwa [List.mem_singleton.1 hq]

/-- A part is flat if its strip is narrow on the axis. -/
theorem flatEnough_iff {first last : Point α} (hrise : first.y - last.y ≠ 0) (inner : Curve α) :
    FlatEnough first last inner tolerance ↔
      |(bulge first last inner).1 - (bulge first last inner).2| / |first.y - last.y| <
        tolerance := by
  have hwidth (c above below : α) : (c - above) / -(first.y - last.y) -
      (c - below) / -(first.y - last.y) = (above - below) / (first.y - last.y) := by
    field_simp
    ring
  simp only [FlatEnough, Scalar.abs_eq, hwidth, abs_div]

/-- A place of the axis is as far from the zero of the chord as it is from the chord. -/
theorem abs_chordZero_sub {first last : Point α} (hrise : first.y - last.y ≠ 0) (t : α) :
    |chordZero first last - t| = |height first last ⟨t, 0⟩| / |first.y - last.y| := by
  have hneg : -(last.y - first.y) = first.y - last.y := neg_sub _ _
  have hmiss : chordZero first last - t = -height first last ⟨t, 0⟩ / (first.y - last.y) := by
    rw [chordZero, height, hneg]
    field_simp
    ring
  rw [hmiss, abs_div, abs_neg]

theorem height_first (first last : Point α) : height first last first = 0 := by
  rw [height]
  ring

theorem height_last (first last : Point α) : height first last last = 0 := by
  rw [height]
  ring

theorem mem_ends_or_inner {β : Type} {l : List β} (hne : l ≠ []) {p : β} (hp : p ∈ l) :
    p = l.head hne ∨ p ∈ l.tail.dropLast ∨ p = l.getLast hne := by
  obtain ⟨first, rest, rfl⟩ := List.exists_cons_of_ne_nil hne
  rcases List.mem_cons.1 hp with rfl | hp
  · exact .inl rfl
  · have hrest : rest ≠ [] := List.ne_nil_of_mem hp
    rw [← List.dropLast_append_getLast hrest, List.mem_append, List.mem_singleton] at hp
    rw [List.getLast_cons hrest]
    exact .inr hp

/-- The graph lies in the strip. -/
theorem Traces.height_mem_bulge (hw : Traces f a b w) (hab : a < b) (ht : t ∈ Set.Icc a b) :
    let strip := bulge (w.head hw.nonempty) (w.getLast hw.nonempty) w.tail.dropLast
    strip.2 ≤ height (w.head hw.nonempty) (w.getLast hw.nonempty) ⟨t, f t⟩ ∧
      height (w.head hw.nonempty) (w.getLast hw.nonempty) ⟨t, f t⟩ ≤ strip.1 := by
  intro strip
  set first := w.head hw.nonempty
  set last := w.getLast hw.nonempty
  obtain ⟨⟨hbelow, habove⟩, hinner⟩ := Curve.height_mem_bulge first last w.tail.dropLast
  have hall : ∀ p ∈ w, strip.2 ≤ height first last p ∧ height first last p ≤ strip.1 := by
    intro p hp
    rcases mem_ends_or_inner hw.nonempty hp with rfl | hp | rfl
    · exact (height_first first last).symm ▸ ⟨hbelow, habove⟩
    · exact hinner p hp
    · exact (height_last first last).symm ▸ ⟨hbelow, habove⟩
  have hlinear := linear_mul_add_mul (first.y - last.y) (last.x - first.x)
  constructor
  · exact sub_le_iff_le_add.1 (hw.le_of_forall_ge hab ht hlinear fun p hp =>
      sub_le_iff_le_add.2 (hall p hp).1)
  · exact le_sub_iff_add_le.1 (hw.le_of_forall_le hab ht hlinear fun p hp =>
      le_sub_iff_add_le.2 (hall p hp).2)

/-- The zero of a flat part is within the tolerance of the zero of its chord. -/
theorem Traces.abs_chordZero_sub_lt (hw : Traces f a b w) (hab : a < b) (ht : Touches f a b t)
    (hone : crossings w = 1)
    (hflat : FlatEnough (w.head hw.nonempty) (w.getLast hw.nonempty) w.tail.dropLast tolerance) :
    |chordZero (w.head hw.nonempty) (w.getLast hw.nonempty) - t| < tolerance := by
  obtain ⟨hlow, hhigh⟩ := hw.height_mem_bulge hab ht.mem
  obtain ⟨⟨hbelow, habove⟩, -⟩ := Curve.height_mem_bulge (w.head hw.nonempty)
    (w.getLast hw.nonempty) w.tail.dropLast
  have hends := (even_crossings_iff hw.nonempty).not.1 (by rw [hone]; decide)
  set first := w.head hw.nonempty
  set last := w.getLast hw.nonempty
  set strip := bulge first last w.tail.dropLast
  have hrise : first.y - last.y ≠ 0 := fun heq => hends (by rw [sub_eq_zero.1 heq])
  have hheight : |height first last ⟨t, 0⟩| ≤ |strip.1 - strip.2| := by
    rw [ht.zero] at hlow hhigh
    rw [abs_of_nonneg (sub_nonneg.2 (hbelow.trans habove))]
    exact abs_le.2 ⟨by linarith, by linarith⟩
  calc |chordZero first last - t|
    _ = |height first last ⟨t, 0⟩| / |first.y - last.y| := abs_chordZero_sub hrise t
    _ ≤ |strip.1 - strip.2| / |first.y - last.y| :=
      div_le_div_of_nonneg_right hheight (abs_nonneg _)
    _ < tolerance := (flatEnough_iff hrise _).1 hflat

/-! ## Isolating zeros -/

/-- The isolation of zeros comes close to every zero with negative values close by. -/
theorem Traces.exists_mem_zeros (hw : Traces f a b w) (hab : a < b) (ht : Touches f a b t)
    (depth : Nat) :
    ∃ r ∈ zeros tolerance depth w, |r - t| ≤ max tolerance ((b - a) / 2 ^ depth) := by
  induction depth generalizing a b w with
  | zero =>
    obtain ⟨count, hcount⟩ := Nat.exists_eq_succ_of_ne_zero (hw.crossings_ne_zero hab ht)
    refine ⟨(a + b) / 2, ?_, le_max_of_le_right ?_⟩
    · rw [zeros, hcount, List.head?_eq_some_head hw.nonempty,
        List.getLast?_eq_some_getLast hw.nonempty]
      simp [hw.head_x, hw.getLast_x, Scalar.half_eq]
    · obtain ⟨hat, htb⟩ := ht.mem
      rw [pow_zero, div_one, abs_le]
      constructor <;> linarith
  | succ depth ih =>
    obtain ⟨count, hcount⟩ := Nat.exists_eq_succ_of_ne_zero (hw.crossings_ne_zero hab ht)
    rw [zeros, hcount, List.head?_eq_some_head hw.nonempty,
      List.getLast?_eq_some_getLast hw.nonempty]
    dsimp only
    split
    · rename_i hflat
      obtain ⟨rfl, hflat⟩ := hflat
      exact ⟨_, List.mem_singleton_self _,
        le_max_of_le_left (hw.abs_chordZero_sub_lt hab ht hcount hflat).le⟩
    · obtain ⟨hleft, hright⟩ := hw.halve
      have hwidth : (b - a) / 2 ^ (depth + 1) = ((a + b) / 2 - a) / 2 ^ depth := by
        rw [pow_succ']
        field_simp
        ring
      rcases ht.halve ((a + b) / 2) with ht | ht
      · obtain ⟨r, hr, hrt⟩ := ih hleft (by linarith) ht
        exact ⟨r, List.mem_append_left _ hr, hwidth ▸ hrt⟩
      · have hhalf : b - (a + b) / 2 = (a + b) / 2 - a := by ring
        obtain ⟨r, hr, hrt⟩ := ih hright (by linarith) ht
        exact ⟨r, List.mem_append_right _ hr, by rwa [hwidth, ← hhalf]⟩

theorem traces_slopeCurve {c : Curve α} (hc : 2 ≤ c.length) (p : Point α) :
    Traces (slope p c) 0 1 (slopeCurve p c) where
  nonempty := by simp [slopeCurve]
  pointAt_eq u := by rw [pointAt_slopeCurve hc, zero_add, sub_zero, one_mul]

theorem exists_eval_eq_slope (p : Point α) (c : Curve α) :
    ∃ P : Polynomial α, slope p c = fun t => P.eval t := by
  refine ⟨(polynomial Point.x c - Polynomial.C p.x) * (polynomial Point.x c).derivative +
    (polynomial Point.y c - Polynomial.C p.y) * (polynomial Point.y c).derivative, ?_⟩
  funext t
  simp [slope, velocity, Point.dot, linear_x.eval_polynomial, linear_y.eval_polynomial]

/-- **No change of sign is lost.** Where the slope of the distance from a point changes its sign
between the ends of a curve, one of the isolated zeros is as close as the depth of the halving or
the tolerance for flat parts asks for. -/
theorem exists_mem_zeros_of_changesSign {c : Curve α} (hc : 2 ≤ c.length) (p : Point α)
    (tolerance : α) (depth : Nat) (h₀ : 0 < t) (h₁ : t < 1) (ht : ChangesSign (slope p c) t) :
    ∃ r ∈ zeros tolerance depth (slopeCurve p c), |r - t| ≤ max tolerance (1 / 2 ^ depth) := by
  obtain ⟨P, hP⟩ := exists_eval_eq_slope p c
  have hzero : slope p c t = 0 := by
    rw [hP] at ht ⊢
    exact ht.eval_eq_zero
  rw [← sub_zero (1 : α)]
  exact (traces_slopeCurve hc p).exists_mem_zeros one_pos (ht.touches hzero h₀ h₁) depth

/-- An arch. The distance from the middle between its feet has a maximum at its top. -/
def arch : Curve ℚ := [⟨0, 0⟩, ⟨1, 2⟩, ⟨2, 0⟩]

theorem slope_arch (t : ℚ) :
    slope ⟨1, 0⟩ arch t = 4 * (1 / 2 - t) * (1 - 8 * (1 / 2 - t) ^ 2) := by
  have hcurve : slopeCurve ⟨1, 0⟩ arch = [⟨0, -2⟩, ⟨1 / 3, 14 / 3⟩, ⟨2 / 3, -14 / 3⟩, ⟨1, 2⟩] := by
    decide +kernel
  calc slope ⟨1, 0⟩ arch t
    _ = (pointAt (slopeCurve ⟨1, 0⟩ arch) t).y := by rw [pointAt_slopeCurve (by decide)]
    _ = 4 * (1 / 2 - t) * (1 - 8 * (1 / 2 - t) ^ 2) := by
      rw [linear_y.pointAt, hcurve]
      simp [Finset.sum_range_succ, bernsteinPolynomial, Nat.choose]
      ring

/-- At the top of the arch, which is where the graph is first cut. -/
theorem changesSign_slope_arch : ChangesSign (slope ⟨1, 0⟩ arch) (1 / 2) := by
  intro ε hε
  obtain ⟨δ, hδ, hδε, hsmall⟩ : ∃ δ : ℚ, 0 < δ ∧ δ < ε ∧ δ < 1 / 8 := by
    obtain ⟨δ, hδ, hmin⟩ := exists_between (lt_min hε (by norm_num : (0 : ℚ) < 1 / 8))
    exact ⟨δ, hδ, hmin.trans_le (min_le_left ..), hmin.trans_le (min_le_right ..)⟩
  refine ⟨1 / 2 - δ, 1 / 2 + δ, by linarith, by linarith, by linarith, by linarith, ?_⟩
  have hopposite : slope ⟨1, 0⟩ arch (1 / 2 - δ) * slope ⟨1, 0⟩ arch (1 / 2 + δ) =
      -(4 * δ * (1 - 8 * δ ^ 2)) ^ 2 := by
    rw [slope_arch, slope_arch]
    ring
  have hfactor : 0 < 1 - 8 * δ ^ 2 := by nlinarith
  rw [hopposite]
  exact neg_neg_of_pos (by positivity)

theorem exists_mem_zeros_arch :
    2 ≤ arch.length ∧ ChangesSign (slope ⟨1, 0⟩ arch) (1 / 2) ∧
      ∃ r ∈ zeros (1 / 1000) 6 (slopeCurve ⟨1, 0⟩ arch),
        |r - 1 / 2| ≤ max (1 / 1000) (1 / 2 ^ 6) :=
  ⟨by decide, changesSign_slope_arch, exists_mem_zeros_of_changesSign (by decide) ⟨1, 0⟩
    (1 / 1000) 6 (by norm_num) (by norm_num) changesSign_slope_arch⟩

end Curve

end Patchbay
