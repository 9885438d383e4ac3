import Patchbay.Proofs.Curve.Defined
import Patchbay.Proofs.Curve.Evaluating

/-!
# Halving adds no crossings

The interpolation triangle cuts the corners of a curve: between two neighbouring control points it
puts a point of the line between them, and then it leaves the two out. Whatever is measured between
neighbours does not grow in total, provided that it adds up along a line and that no detour is
shorter (`CutsCorners`). One row of the triangle is the step (`variation_interpolate_le`), and the two
parts of a split curve are what all rows come to (`variation_split_le`).

Crossings are such a measure, and so is what a coordinate loses on the way. Hence the two halves of a
curve have no more crossings than the curve, the isolation of zeros finds at most as many zeros as
there are crossings, and the zeros of a curve that does not turn back are found between its ends
(`zeros_within_crossings`).
-/

namespace Patchbay

namespace Curve

/-! ## Measures between neighbours -/

section Variation

variable {α β : Type} [AddCommMonoid β] {d : Point α → Point α → β} {q r : Point α} {t : α}

/-- What is measured between neighbouring control points, in total. -/
def variation (d : Point α → Point α → β) : Curve α → β
  | [] => 0
  | [_] => 0
  | p :: q :: rest => d p q + variation d (q :: rest)

theorem variation_cons {l : Curve α} (h : l.head? = some q) :
    variation d (p :: l) = d p q + variation d l := by
  cases l with
  | nil => cases h
  | cons x l =>
    obtain rfl : x = q := Option.some.inj h
    rfl

theorem variation_concat {l : Curve α} (h : l.getLast? = some q) :
    variation d (l ++ [r]) = variation d l + d q r := by
  induction l with
  | nil => cases h
  | cons x l ih =>
    cases l with
    | nil =>
      obtain rfl : x = q := Option.some.inj h
      exact add_comm (d x r) 0
    | cons y l =>
      rw [List.cons_append, List.cons_append, variation, ← List.cons_append,
        ih (by rwa [List.getLast?_cons_cons] at h), variation, add_assoc]

variable [ExactScalar α] [PartialOrder β] [IsOrderedAddMonoid β]

/-- No detour is shorter, and the point at `t` on the line between two points is no detour. -/
structure CutsCorners (d : Point α → Point α → β) (t : α) : Prop where
  detour : ∀ p q r, d p r ≤ d p q + d q r
  straight : ∀ p q, d p (p.lerp q t) + d (p.lerp q t) q ≤ d p q

/-- One row further, with the ends kept, the total is no greater. -/
theorem variation_interpolate_le (hd : CutsCorners d t) (p q : Point α) (rest : Curve α) :
    variation d (p :: (interpolate t (p :: q :: rest) ++
        [(q :: rest).getLast (List.cons_ne_nil q rest)])) ≤
      variation d (p :: q :: rest) := by
  induction rest generalizing p q with
  | nil =>
    calc d p (p.lerp q t) + (d (p.lerp q t) q + 0)
      _ = d p (p.lerp q t) + d (p.lerp q t) q := by rw [add_zero]
      _ ≤ d p q := hd.straight p q
      _ = d p q + 0 := (add_zero _).symm
  | cons r rest ih =>
    set m := p.lerp q t
    set tail := interpolate t (r :: rest) ++ [(r :: rest).getLast (List.cons_ne_nil r rest)]
    have hcorner : variation d (m :: q.lerp r t :: tail) ≤
        d m q + variation d (q :: q.lerp r t :: tail) := by
      rw [variation, variation, ← add_assoc]
      exact add_le_add_left (hd.detour m q _) _
    calc variation d (p :: m :: q.lerp r t :: tail)
      _ = d p m + variation d (m :: q.lerp r t :: tail) := rfl
      _ ≤ d p m + (d m q + variation d (q :: q.lerp r t :: tail)) := add_le_add_right hcorner _
      _ = d p m + d m q + variation d (q :: q.lerp r t :: tail) := (add_assoc _ _ _).symm
      _ ≤ d p q + variation d (q :: r :: rest) := add_le_add (hd.straight p q) (ih q r)

/-- The two parts of a split curve have no more in total than the curve. -/
theorem variation_split_le (hd : CutsCorners d t) (w : Curve α) :
    variation d (split w t).1 + variation d (split w t).2 ≤ variation d w := by
  induction w using rows.induct t with
  | case1 =>
    rw [split_nil]
    exact (add_zero _).le
  | case2 p rest ih =>
    rw [split_of_ne_nil (List.cons_ne_nil p rest)]
    cases rest with
    | nil => simp [interpolate, split_nil, variation]
    | cons q rest =>
      set row := interpolate t (p :: q :: rest)
      set last := (p :: q :: rest).getLast (List.cons_ne_nil p (q :: rest))
      have hne : row ≠ [] := List.cons_ne_nil _ _
      have hfirst := List.head?_eq_some_head hne
      have hlast := List.getLast?_eq_some_getLast hne
      have hleft := (head?_split_fst row t).trans hfirst
      have hright := (getLast?_split_snd row t).trans hlast
      calc variation d (p :: (split row t).1) + variation d ((split row t).2 ++ [last])
        _ = d p (row.head hne) +
            (variation d (split row t).1 + variation d (split row t).2) +
            d (row.getLast hne) last := by
          rw [variation_cons hleft, variation_concat hright]
          abel
        _ ≤ d p (row.head hne) + variation d row + d (row.getLast hne) last := by
          gcongr
        _ = variation d (p :: (row ++ [last])) := by
          rw [← List.cons_append, variation_concat (q := row.getLast hne), variation_cons hfirst]
          rw [List.getLast?_cons, hlast]
          rfl
        _ ≤ variation d (p :: q :: rest) := variation_interpolate_le hd p q rest

end Variation

variable {α : Type} [ExactScalar α] {f : Point α → α} {w : Curve α} {p q first last : Point α}
  {a b t tolerance r : α} {depth : Nat}

/-! ## Points between two points -/

theorem Linear.lerp_le (hf : Linear f) (h₀ : 0 ≤ t) (h₁ : t ≤ 1) (hp : f p ≤ b) (hq : f q ≤ b) :
    f (p.lerp q t) ≤ b :=
  calc f (p.lerp q t)
    _ = f p * (1 - t) + f q * t := hf.lerp p q t
    _ ≤ b * (1 - t) + b * t :=
      add_le_add (mul_le_mul_of_nonneg_right hp (sub_nonneg.2 h₁)) (mul_le_mul_of_nonneg_right hq h₀)
    _ = b := by ring

theorem Linear.le_lerp (hf : Linear f) (h₀ : 0 ≤ t) (h₁ : t ≤ 1) (hp : a ≤ f p) (hq : a ≤ f q) :
    a ≤ f (p.lerp q t) :=
  neg_le_neg_iff.1 (hf.neg.lerp_le h₀ h₁ (neg_le_neg hp) (neg_le_neg hq))

/-! ## Crossings -/

/-- One if the points are on different sides of the axis, and zero if not. -/
def parted (p q : Point α) : Nat := if decide (p.y < 0) = decide (q.y < 0) then 0 else 1

theorem crossings_eq_variation (w : Curve α) : crossings w = variation parted w := by
  fun_induction variation parted w with
  | case1 => rfl
  | case2 => rfl
  | case3 p q rest ih =>
    rw [crossings, ih]
    rfl

/-- A line between two points on one side of the axis stays there, and any other crosses once. -/
theorem cutsCorners_parted (h₀ : 0 ≤ t) (h₁ : t ≤ 1) : CutsCorners (parted (α := α)) t where
  detour p q r := by
    by_cases hp : p.y < 0 <;> by_cases hq : q.y < 0 <;> by_cases hr : r.y < 0 <;>
      simp [parted, hp, hq, hr]
  straight p q := by
    by_cases hp : p.y < 0 <;> by_cases hq : q.y < 0
    · have hm : (p.lerp q t).y < 0 :=
        (linear_y.lerp_le h₀ h₁ (le_max_left p.y q.y) (le_max_right p.y q.y)).trans_lt
          (max_lt hp hq)
      simp [parted, hp, hq, hm]
    · by_cases hm : (p.lerp q t).y < 0 <;> simp [parted, hp, hq, hm]
    · by_cases hm : (p.lerp q t).y < 0 <;> simp [parted, hp, hq, hm]
    · have hm : ¬ (p.lerp q t).y < 0 :=
        not_lt.2 (linear_y.le_lerp h₀ h₁ (not_lt.1 hp) (not_lt.1 hq))
      simp [parted, hp, hq, hm]

/-- The parts of a split curve have no more crossings than the curve. -/
theorem crossings_split_le (h₀ : 0 ≤ t) (h₁ : t ≤ 1) (w : Curve α) :
    crossings (split w t).1 + crossings (split w t).2 ≤ crossings w := by
  simp only [crossings_eq_variation]
  exact variation_split_le (cutsCorners_parted h₀ h₁) w

/-! ## Curves that do not turn back -/

/-- How far the second point lies to the left of the first. -/
def retreat (p q : Point α) : α := max (p.x - q.x) 0

theorem retreat_nonneg (p q : Point α) : 0 ≤ retreat p q := le_max_right _ _

theorem retreat_eq_zero_iff : retreat p q = 0 ↔ p.x ≤ q.x := by
  rw [retreat, max_eq_right_iff, sub_nonpos]

theorem retreat_of_le (h : q.x ≤ p.x) : retreat p q = p.x - q.x := max_eq_left (sub_nonneg.2 h)

theorem cutsCorners_retreat (h₀ : 0 ≤ t) (h₁ : t ≤ 1) : CutsCorners (retreat (α := α)) t where
  detour p q r := by
    refine max_le ?_ (add_nonneg (retreat_nonneg p q) (retreat_nonneg q r))
    calc p.x - r.x
      _ = (p.x - q.x) + (q.x - r.x) := by ring
      _ ≤ retreat p q + retreat q r := add_le_add (le_max_left _ _) (le_max_left _ _)
  straight p q := by
    rcases le_total p.x q.x with h | h
    · rw [retreat_eq_zero_iff.2 (linear_x.le_lerp h₀ h₁ le_rfl h),
        retreat_eq_zero_iff.2 (linear_x.lerp_le h₀ h₁ h le_rfl), retreat_eq_zero_iff.2 h, add_zero]
    · rw [retreat_of_le (linear_x.lerp_le h₀ h₁ le_rfl h),
        retreat_of_le (linear_x.le_lerp h₀ h₁ h le_rfl), retreat_of_le h]
      exact (sub_add_sub_cancel _ _ _).le

theorem variation_retreat_nonneg (w : Curve α) : 0 ≤ variation retreat w := by
  fun_induction variation retreat w with
  | case1 => exact le_rfl
  | case2 => exact le_rfl
  | case3 p q rest ih => exact add_nonneg (retreat_nonneg p q) ih

theorem isChain_iff_variation (w : Curve α) :
    w.IsChain (fun p q => p.x ≤ q.x) ↔ variation retreat w = 0 := by
  fun_induction variation retreat w with
  | case1 => simp
  | case2 => simp
  | case3 p q rest ih =>
    rw [List.isChain_cons_cons, ih, ← retreat_eq_zero_iff,
      add_eq_zero_iff_of_nonneg (retreat_nonneg p q) (variation_retreat_nonneg _)]

/-- The control points are in order from left to right. -/
def Rising (w : Curve α) : Prop := w.Pairwise fun p q => p.x ≤ q.x

/-- A curve is in order if nothing is lost on the way. -/
theorem rising_iff_variation (w : Curve α) : Rising w ↔ variation retreat w = 0 := by
  have _ : Trans (fun p q : Point α => p.x ≤ q.x) (fun p q : Point α => p.x ≤ q.x)
      (fun p q : Point α => p.x ≤ q.x) := ⟨le_trans⟩
  exact List.isChain_iff_pairwise.symm.trans (isChain_iff_variation w)

namespace Rising

/-- The parts of a curve in order are in order. -/
theorem parts (hw : Rising w) (h₀ : 0 ≤ t) (h₁ : t ≤ 1) :
    Rising (split w t).1 ∧ Rising (split w t).2 := by
  have hparts := variation_split_le (cutsCorners_retreat h₀ h₁) w
  have hleft := variation_retreat_nonneg (split w t).1
  have hright := variation_retreat_nonneg (split w t).2
  rw [(rising_iff_variation w).1 hw] at hparts
  exact ⟨(rising_iff_variation _).2 (by linarith), (rising_iff_variation _).2 (by linarith)⟩

theorem ends_le (hw : Rising w) (hfirst : w.head? = some first) (hlast : w.getLast? = some last) :
    first.x ≤ last.x := by
  obtain ⟨rest, rfl⟩ := List.head?_eq_some_iff.1 hfirst
  rcases List.mem_cons.1 (List.mem_of_getLast? hlast) with rfl | hmem
  · exact le_rfl
  · exact (List.pairwise_cons.1 hw).1 last hmem

end Rising

/-! ## The zero of a chord -/

/-- The chord meets the axis at a share of the way from one of its ends to the other. -/
theorem share_mem (hsides : ¬ (first.y < 0 ↔ last.y < 0)) :
    0 ≤ first.y / (first.y - last.y) ∧ first.y / (first.y - last.y) ≤ 1 := by
  by_cases hfirst : first.y < 0
  · have hlast : 0 ≤ last.y := not_lt.1 fun h => hsides (iff_of_true hfirst h)
    have hdrop : first.y - last.y < 0 := by linarith
    exact ⟨div_nonneg_of_nonpos hfirst.le hdrop.le, (div_le_one_of_neg hdrop).2 (by linarith)⟩
  · have hlast : last.y < 0 := not_le.1 fun h => hsides (iff_of_false hfirst (not_lt.2 h))
    have hdrop : 0 < first.y - last.y := by linarith
    exact ⟨div_nonneg (not_lt.1 hfirst) hdrop.le, (div_le_one hdrop).2 (by linarith)⟩

theorem chordZero_eq_lerp (hrise : first.y - last.y ≠ 0) :
    chordZero first last = (first.lerp last (first.y / (first.y - last.y))).x := by
  have hneg : -(last.y - first.y) = first.y - last.y := neg_sub _ _
  rw [linear_x.lerp, chordZero, hneg]
  field_simp
  ring

/-- The chord between points on different sides of the axis meets it between them. -/
theorem chordZero_mem (hsides : ¬ (first.y < 0 ↔ last.y < 0)) (hle : first.x ≤ last.x) :
    first.x ≤ chordZero first last ∧ chordZero first last ≤ last.x := by
  have hrise : first.y - last.y ≠ 0 := fun heq => hsides (by rw [sub_eq_zero.1 heq])
  obtain ⟨h₀, h₁⟩ := share_mem hsides
  rw [chordZero_eq_lerp hrise]
  exact ⟨linear_x.le_lerp h₀ h₁ le_rfl hle, linear_x.lerp_le h₀ h₁ hle le_rfl⟩

/-! ## Isolating zeros -/

theorem half_one_mem : 0 ≤ Scalar.half (1 : α) ∧ Scalar.half (1 : α) ≤ 1 := by
  rw [Scalar.half_eq]
  constructor <;> norm_num

/-- At most one zero is found for every crossing. -/
theorem length_zeros_le (tolerance : α) (depth : Nat) (w : Curve α) :
    (zeros tolerance depth w).length ≤ crossings w := by
  fun_induction zeros tolerance depth w with
  | case1 => exact Nat.zero_le _
  | case2 => exact Nat.zero_le _
  | case3 => exact Nat.zero_le _
  | case4 w count first last hlast hhead hcount =>
    rw [hcount]
    exact Nat.succ_le_succ count.zero_le
  | case5 w count first last hlast hhead hcount depth hflat =>
    rw [hcount]
    exact Nat.succ_le_succ count.zero_le
  | case6 w count first last hlast hhead hcount depth hflat left right hsplit ihleft ihright =>
    have hparts := crossings_split_le half_one_mem.1 half_one_mem.2 w
    rw [hsplit] at hparts
    rw [List.length_append]
    exact (Nat.add_le_add ihleft ihright).trans hparts

/-- The zeros of a curve in order are found between its ends. -/
theorem Rising.mem_zeros (hw : Rising w) (hfirst : w.head? = some first)
    (hlast : w.getLast? = some last) (hr : r ∈ zeros tolerance depth w) :
    first.x ≤ r ∧ r ≤ last.x := by
  fun_induction zeros tolerance depth w generalizing first last with
  | case1 => cases hr
  | case2 => cases hr
  | case3 => cases hr
  | case4 w count p q hq hp hcount =>
    obtain rfl := Option.some.inj (hp.symm.trans hfirst)
    obtain rfl := Option.some.inj (hq.symm.trans hlast)
    have hle := hw.ends_le hp hq
    rw [List.mem_singleton.1 hr, Scalar.half_eq]
    constructor <;> linarith
  | case5 w count p q hq hp hcount depth hflat =>
    obtain rfl := Option.some.inj (hp.symm.trans hfirst)
    obtain rfl := Option.some.inj (hq.symm.trans hlast)
    obtain ⟨rfl, -⟩ := hflat
    rw [List.mem_singleton.1 hr]
    exact chordZero_mem (sides_ne hp hq hcount) (hw.ends_le hp hq)
  | case6 w count p q hq hp hcount depth hflat left right hsplit ihleft ihright =>
    obtain ⟨hleft, hright⟩ := hw.parts half_one_mem.1 half_one_mem.2
    have hne : w ≠ [] := by
      intro hnil
      simp [hnil] at hp
    have hstart := (head?_split_fst w (Scalar.half 1)).trans hfirst
    have hend := (getLast?_split_snd w (Scalar.half 1)).trans hlast
    have hmeet := getLast?_split_fst hne (Scalar.half 1)
    have hmeet' := (head?_split_snd w (Scalar.half 1)).trans hmeet
    rw [hsplit] at hleft hright hstart hend hmeet hmeet'
    -- the zeros of either part lie on its side of the point where the parts meet
    rcases List.mem_append.1 hr with hr | hr
    · obtain ⟨hlow, hhigh⟩ := ihleft hleft hstart hmeet hr
      exact ⟨hlow, hhigh.trans (hright.ends_le hmeet' hend)⟩
    · obtain ⟨hlow, hhigh⟩ := ihright hright hmeet' hend hr
      exact ⟨(hleft.ends_le hstart hmeet).trans hlow, hhigh⟩

/-- **Crossings bound the search.** The halves of a curve have no more crossings than the curve, so
at most one zero is found for every crossing, to whatever depth and tolerance. The search divides by
zero nowhere. Between control points in order from left to right, it stays between the first and the
last. -/
theorem zeros_within_crossings (w : Curve α) (tolerance : α) (depth : Nat) :
    crossings (split w (Scalar.half 1)).1 + crossings (split w (Scalar.half 1)).2 ≤ crossings w ∧
      (zeros tolerance depth w).length ≤ crossings w ∧
      zeros? tolerance depth w = some (zeros tolerance depth w) ∧
      (Rising w → ∀ first ∈ w.head?, ∀ last ∈ w.getLast?, ∀ r ∈ zeros tolerance depth w,
        first.x ≤ r ∧ r ≤ last.x) :=
  ⟨crossings_split_le half_one_mem.1 half_one_mem.2 w, length_zeros_le tolerance depth w,
    zeros?_eq tolerance depth w,
    fun hw _ hfirst _ hlast _ hr => hw.mem_zeros hfirst hlast hr⟩

/-- A curve that crosses the axis three times, once where it is halved first. -/
def wave : Curve ℚ := [⟨0, -2⟩, ⟨1 / 3, 14 / 3⟩, ⟨2 / 3, -14 / 3⟩, ⟨1, 2⟩]

theorem zeros_within_crossings_wave :
    Rising wave ∧ crossings wave = 3 ∧ zeros? (1 / 100) 4 wave = some (zeros (1 / 100) 4 wave) ∧
      (zeros (1 / 100) 4 wave).length ≤ 3 ∧
        ∀ r ∈ zeros (1 / 100) 4 wave, 0 ≤ r ∧ r ≤ 1 := by
  have hrising : Rising wave := by
    simp only [Rising, wave, List.pairwise_cons]
    norm_num
  have hthree : crossings wave = 3 := by decide +kernel
  obtain ⟨-, hlength, hdefined, hbetween⟩ := zeros_within_crossings wave (1 / 100) 4
  exact ⟨hrising, hthree, hdefined, hthree ▸ hlength, hbetween hrising _ rfl _ rfl⟩

end Curve

end Patchbay
