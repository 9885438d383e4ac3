import Mathlib.Tactic.Linarith
import Mathlib.Tactic.NormNum
import Mathlib.Tactic.Ring
import Patchbay.Curve.March
import Patchbay.Proofs.Exact

/-!
# Walking along a curve

A walk goes on while the length behind it is short of its target. That length need not grow, since a
curve may rest in one point for a while, so what ends a walk is the parameter: it takes equal steps
in one direction, and two hundred and one of them lead out of the interval from zero to one.

`Walk` is the loop without a bound on its rounds. It has at most one outcome (`Walk.unique`), and a
march with enough rounds has the outcome of the walk (`exists_walk_march`).

Two walks from one place, in one direction and with different targets, pass the same places until
one of them ends, and that is not the one with the greater target (`Walk.toward_of_le`). No property
of lengths is used in that, not even that they are not negative.
-/

namespace Patchbay

namespace Scalar

variable {α : Type} [ExactScalar α] {lo hi a b : α}

/-! ## Clamping -/

theorem clamp_eq (lo hi a : α) : clamp lo hi a = min hi (max lo a) := by
  have hraised : (if a < lo then lo else a) = max lo a := by
    split
    · rename_i h
      rw [max_eq_left h.le]
    · rename_i h
      rw [max_eq_right (not_lt.1 h)]
  unfold clamp
  rw [hraised]
  dsimp only
  split
  · rename_i h
    rw [min_eq_left h.le]
  · rename_i h
    rw [min_eq_right (not_lt.1 h)]

theorem between_clamp (h : lo ≤ hi) (a : α) : Between lo hi (clamp lo hi a) := by
  rw [clamp_eq]
  exact ⟨le_min h (le_max_left lo a), min_le_left hi _⟩

theorem clamp_of_between (h : Between lo hi a) : clamp lo hi a = a := by
  rw [clamp_eq, max_eq_right h.1, min_eq_right h.2]

theorem clamp_le_clamp (h : a ≤ b) : clamp lo hi a ≤ clamp lo hi b := by
  rw [clamp_eq, clamp_eq]
  exact min_le_min_left hi (max_le_max_left lo h)

end Scalar

namespace Curve

open Scalar

variable {α : Type} [ExactScalar α] {c : Curve α} {direction target target' covered : α}
  {here last last' : Place α} {n m rounds : Nat}

/-! ## Walks -/

def placeAt (c : Curve α) (t : α) : Place α := ⟨pointAt c t, t⟩

def next (direction : α) (here : Place α) : α := here.location + marchStep * direction

/-- A walk from `here`, with `covered` behind it, takes that many rounds and ends at a place: where
it is when the target is covered, or else at the end of the curve that the next step would pass. -/
inductive Walk (c : Curve α) (direction target : α) : Nat → Place α → α → Place α → Prop
  | arrive {here : Place α} {covered : α} :
      ¬ covered < target → Walk c direction target 0 here covered here
  | leave {here : Place α} {covered : α} :
      covered < target → ¬ Between 0 1 (next direction here) →
      Walk c direction target 1 here covered (placeAt c (clamp 0 1 (next direction here)))
  | step {n : Nat} {here last : Place α} {covered : α} :
      covered < target → Between 0 1 (next direction here) →
      Walk c direction target n (placeAt c (next direction here))
        (covered + here.point.distance (pointAt c (next direction here))) last →
      Walk c direction target (n + 1) here covered last

/-- A walk has one outcome. -/
theorem Walk.unique (h : Walk c direction target n here covered last)
    (h' : Walk c direction target m here covered last') : m = n ∧ last' = last := by
  induction h generalizing m last' with
  | arrive hdone =>
    cases h' with
    | arrive => exact ⟨rfl, rfl⟩
    | leave hshort => exact absurd hshort hdone
    | step hshort => exact absurd hshort hdone
  | leave hshort hout =>
    cases h' with
    | arrive hdone => exact absurd hshort hdone
    | leave => exact ⟨rfl, rfl⟩
    | step _ hin => exact absurd hin hout
  | step hshort hin _ ih =>
    cases h' with
    | arrive hdone => exact absurd hshort hdone
    | leave _ hout => exact absurd hin hout
    | step _ _ hrest =>
      obtain ⟨rfl, rfl⟩ := ih hrest
      exact ⟨rfl, rfl⟩

/-- A march with so many rounds that as many steps lead out of the curve is a walk. -/
theorem exists_walk_march (here : Place α) (covered : α) (hin : Between 0 1 here.location)
    (hout : ¬ Between 0 1 (here.location + rounds * (marchStep * direction))) :
    ∃ n ≤ rounds,
      Walk c direction target n here covered (march c direction target rounds here covered) := by
  induction rounds generalizing here covered with
  | zero =>
    rw [Nat.cast_zero, zero_mul, add_zero] at hout
    exact absurd hin hout
  | succ rounds ih =>
    rw [march]
    by_cases hshort : covered < target
    · rw [if_pos hshort]
      by_cases hnext : Between 0 1 (next direction here)
      · have hrest : ¬ Between 0 1
            ((placeAt c (next direction here)).location + rounds * (marchStep * direction)) := by
          have hsum : here.location + (rounds + 1 : Nat) * (marchStep * direction) =
              next direction here + rounds * (marchStep * direction) := by
            rw [next]
            push_cast
            ring
          rwa [hsum] at hout
        obtain ⟨n, hn, hwalk⟩ := ih (placeAt c (next direction here)) _ hnext hrest
        refine ⟨n + 1, Nat.succ_le_succ hn, ?_⟩
        rw [if_pos (show Between 0 1 (here.location + marchStep * direction) from hnext)]
        exact .step hshort hnext hwalk
      · refine ⟨1, Nat.succ_le_succ (Nat.zero_le rounds), ?_⟩
        rw [if_neg (show ¬ Between 0 1 (here.location + marchStep * direction) from hnext)]
        exact .leave hshort hnext
    · rw [if_neg hshort]
      exact ⟨0, Nat.zero_le _, .arrive hshort⟩

/-! ## Where walks end -/

/-- A walk that starts on the curve ends on it. -/
theorem Walk.between (h : Walk c direction target n here covered last)
    (hin : Between 0 1 here.location) : Between 0 1 last.location := by
  induction h with
  | arrive => exact hin
  | leave => exact between_clamp zero_le_one _
  | step _ hnext _ ih => exact ih hnext

/-- The place where a walk ends is that of its parameter. -/
theorem Walk.eq_placeAt (h : Walk c direction target n here covered last)
    (hhere : here = placeAt c here.location) : last = placeAt c last.location := by
  induction h with
  | arrive => exact hhere
  | leave => rfl
  | step _ _ _ ih => exact ih rfl

/-- From `a` to `b` it goes in the direction, if it goes anywhere. -/
def Toward (direction a b : α) : Prop := (0 < direction → a ≤ b) ∧ (direction < 0 → b ≤ a)

theorem Toward.refl (direction a : α) : Toward direction a a := ⟨fun _ => le_rfl, fun _ => le_rfl⟩

theorem Toward.trans {a b t : α} (h : Toward direction a b) (h' : Toward direction b t) :
    Toward direction a t :=
  ⟨fun hpos => (h.1 hpos).trans (h'.1 hpos), fun hneg => (h'.2 hneg).trans (h.2 hneg)⟩

/-- Clamping the second of two parameters to the curve leaves it on its side of the first. -/
theorem Toward.clamp {a b : α} (ha : Between 0 1 a) (h : Toward direction a b) :
    Toward direction a (Scalar.clamp 0 1 b) := by
  have hself : Scalar.clamp 0 1 a = a := clamp_of_between ha
  apply And.intro
  · intro hpos
    calc a
      _ = Scalar.clamp 0 1 a := hself.symm
      _ ≤ Scalar.clamp 0 1 b := clamp_le_clamp (h.1 hpos)
  · intro hneg
    calc Scalar.clamp 0 1 b
      _ ≤ Scalar.clamp 0 1 a := clamp_le_clamp (h.2 hneg)
      _ = a := hself

theorem toward_one {a b : α} : Toward 1 a b ↔ a ≤ b := by
  have hpos : (0 : α) < 1 := zero_lt_one
  simp [Toward, hpos, hpos.le]

theorem toward_neg_one {a b : α} : Toward (-1) a b ↔ b ≤ a := by
  have hneg : (-1 : α) < 0 := by
    norm_num
  simp [Toward, hneg]

theorem marchStep_eq : (marchStep : α) = 1 / 200 := by
  rw [marchStep, ExactScalar.ofScientific_eq]
  norm_num

theorem toward_next (direction : α) (here : Place α) :
    Toward direction here.location (next direction here) := by
  have hstep : (0 : α) ≤ marchStep := by
    rw [marchStep_eq]
    norm_num
  apply And.intro
  · intro hpos
    exact le_add_of_nonneg_right (mul_nonneg hstep hpos.le)
  · intro hneg
    exact add_le_of_nonpos_right (mul_nonpos_of_nonneg_of_nonpos hstep hneg.le)

theorem Walk.toward (h : Walk c direction target n here covered last)
    (hin : Between 0 1 here.location) : Toward direction here.location last.location := by
  induction h with
  | arrive => exact .refl direction _
  | leave => exact (toward_next direction _).clamp hin
  | step _ hnext _ ih => exact (toward_next direction _).trans (ih hnext)

/-- **The walk with the greater target goes further**, or as far. -/
theorem Walk.toward_of_le (h : Walk c direction target n here covered last)
    (h' : Walk c direction target' m here covered last') (htarget : target ≤ target')
    (hin : Between 0 1 here.location) : Toward direction last.location last'.location := by
  induction h generalizing m last' with
  | arrive => exact h'.toward hin
  | leave hshort hout =>
    cases h' with
    | arrive hdone => exact absurd (hshort.trans_le htarget) hdone
    | leave => exact .refl direction _
    | step _ hnext => exact absurd hnext hout
  | step hshort hnext _ ih =>
    cases h' with
    | arrive hdone => exact absurd (hshort.trans_le htarget) hdone
    | leave _ hout => exact absurd hnext hout
    | step _ _ hrest => exact ih hrest hnext

/-! ## From a location -/

/-- The direction of a walk over a signed distance. -/
def heading (distance : α) : α := if 0 < distance then 1 else -1

/-- A walk of `distance` along the curve from `location`: none where the curve is one point. -/
def Walks (c : Curve α) (location distance : α) (n : Nat) (last : Place α) : Prop :=
  if IsPoint c then n = 0 ∧ last = placeAt c (clamp 0 1 location)
  else Walk c (heading distance) |distance| n (placeAt c (clamp 0 1 location)) 0 last

/-- Two hundred and one steps in either direction lead out of the curve. -/
theorem not_between_heading {location : α} (hin : Between 0 1 location) (distance : α) :
    ¬ Between 0 1 (location + marchRounds * (marchStep * heading distance)) := by
  have hrounds : ((marchRounds : Nat) : α) = 201 := by
    rw [marchRounds]
    norm_num
  intro hbetween
  rw [hrounds, marchStep_eq, heading] at hbetween
  split at hbetween
  · linarith [hin.1, hbetween.2]
  · linarith [hin.2, hbetween.1]

theorem exists_walks_placeAlong (c : Curve α) (location distance : α) :
    ∃ n ≤ marchRounds, Walks c location distance n (placeAlong c location distance) := by
  unfold Walks placeAlong
  by_cases hpoint : IsPoint c
  · simp only [if_pos hpoint]
    exact ⟨0, Nat.zero_le _, rfl, rfl⟩
  · simp only [if_neg hpoint, Scalar.abs_eq]
    have hin : Between 0 1 (clamp 0 1 location) := between_clamp zero_le_one location
    exact exists_walk_march (placeAt c (clamp 0 1 location)) 0 hin
      (not_between_heading hin distance)

theorem Walks.unique {location distance : α} (h : Walks c location distance n last)
    (h' : Walks c location distance m last') : m = n ∧ last' = last := by
  unfold Walks at h h'
  split at h
  · rename_i hpoint
    rw [if_pos hpoint] at h'
    exact ⟨h'.1.trans h.1.symm, h'.2.trans h.2.symm⟩
  · rename_i hpoint
    rw [if_neg hpoint] at h'
    exact h.unique h'

theorem Walks.between {location distance : α} (h : Walks c location distance n last) :
    Between 0 1 last.location := by
  have hin : Between 0 1 (clamp 0 1 location) := between_clamp zero_le_one location
  unfold Walks at h
  split at h
  · rw [h.2]
    exact hin
  · exact h.between hin

theorem Walks.eq_placeAt {location distance : α} (h : Walks c location distance n last) :
    last = placeAt c last.location := by
  unfold Walks at h
  split at h
  · rw [h.2]
    rfl
  · exact h.eq_placeAt rfl

/-- A walk of no length goes in every direction, and any other one in that of its sign. -/
theorem Walks.walk {location : α} (h : Walks c location (direction * target) n last)
    (hpoint : ¬ IsPoint c) (hdirection : direction = 1 ∨ direction = -1) (htarget : 0 ≤ target) :
    Walk c direction target n (placeAt c (clamp 0 1 location)) 0 last := by
  unfold Walks at h
  rw [if_neg hpoint] at h
  obtain rfl | hpos := htarget.eq_or_lt
  · rw [mul_zero, abs_zero] at h
    cases h with
    | arrive hdone => exact .arrive hdone
    | leave hshort => exact absurd hshort (lt_irrefl 0)
    | step hshort => exact absurd hshort (lt_irrefl 0)
  · obtain rfl | rfl := hdirection
    · rwa [one_mul, heading, if_pos hpos, abs_of_pos hpos] at h
    · have hneg : ¬ 0 < -target := not_lt.2 (neg_nonpos.2 hpos.le)
      rwa [neg_one_mul, heading, if_neg hneg, abs_neg, abs_of_pos hpos] at h

/-- In either direction, a longer walk passes the end of a shorter one, and no walk turns back. -/
theorem Walks.toward_of_le {location : α} (h : Walks c location (direction * target) n last)
    (h' : Walks c location (direction * target') m last')
    (hdirection : direction = 1 ∨ direction = -1) (htarget : 0 ≤ target) (hle : target ≤ target')
    (hin : Between 0 1 location) :
    Toward direction location last.location ∧
      Toward direction last.location last'.location := by
  have hself : clamp 0 1 location = location := clamp_of_between hin
  by_cases hpoint : IsPoint c
  · unfold Walks at h h'
    rw [if_pos hpoint, hself] at h h'
    rw [h.2, h'.2]
    exact ⟨.refl direction _, .refl direction _⟩
  · have hwalk := h.walk hpoint hdirection htarget
    have hwalk' := h'.walk hpoint hdirection (htarget.trans hle)
    rw [hself] at hwalk hwalk'
    exact ⟨hwalk.toward hin, hwalk.toward_of_le hwalk' hle hin⟩

/-- **The place at a distance along a curve.** From every location on the curve and for every
distance, the walk ends within two hundred and one rounds, on the curve, with the place that is
returned. Of two walks in one direction, the place at the smaller distance lies between the start
and the place at the greater one. -/
theorem placeAlong_walks (c : Curve α) {location : α} (hin : Between 0 1 location) :
    (∀ distance,
      (∃ n ≤ 201, ∀ m last,
        Walks c location distance m last ↔ m = n ∧ last = placeAlong c location distance) ∧
      Between 0 1 (placeAlong c location distance).location ∧
      (placeAlong c location distance).point =
        pointAt c (placeAlong c location distance).location) ∧
    (∀ d₁ d₂, 0 ≤ d₁ → d₁ ≤ d₂ →
      Between location (placeAlong c location d₂).location (placeAlong c location d₁).location) ∧
    ∀ d₁ d₂, d₁ ≤ 0 → d₂ ≤ d₁ →
      Between (placeAlong c location d₂).location location
        (placeAlong c location d₁).location := by
  refine ⟨fun distance => ?_, fun d₁ d₂ hpos hle => ?_, fun d₁ d₂ hneg hle => ?_⟩
  · obtain ⟨n, hn, hwalk⟩ := exists_walks_placeAlong c location distance
    refine ⟨⟨n, hn, fun m last => ?_⟩, hwalk.between, congrArg Place.point hwalk.eq_placeAt⟩
    apply Iff.intro
    · intro hother
      exact hwalk.unique hother
    · intro hsame
      rwa [hsame.1, hsame.2]
  · obtain ⟨n, -, hwalk⟩ := exists_walks_placeAlong c location d₁
    obtain ⟨m, -, hwalk'⟩ := exists_walks_placeAlong c location d₂
    rw [← one_mul d₁] at hwalk
    rw [← one_mul d₂] at hwalk'
    have htoward := hwalk.toward_of_le hwalk' (.inl rfl) hpos hle hin
    rw [one_mul, one_mul, toward_one, toward_one] at htoward
    exact htoward
  · obtain ⟨n, -, hwalk⟩ := exists_walks_placeAlong c location d₁
    obtain ⟨m, -, hwalk'⟩ := exists_walks_placeAlong c location d₂
    rw [← neg_neg d₁, ← neg_one_mul (-d₁)] at hwalk
    rw [← neg_neg d₂, ← neg_one_mul (-d₂)] at hwalk'
    have htoward := hwalk.toward_of_le hwalk' (.inr rfl) (neg_nonneg.2 hneg)
      (neg_le_neg hle) hin
    rw [neg_one_mul, neg_one_mul, neg_neg, neg_neg, toward_neg_one, toward_neg_one] at htoward
    exact ⟨htoward.2, htoward.1⟩

/-- A curve that runs along a line, turns halfway and comes back to where it started. -/
def turning : Curve ℚ := [⟨0, 0⟩, ⟨100, 0⟩, ⟨0, 0⟩]

theorem placeAlong_walks_turning :
    ¬ IsPoint turning ∧ Between (0 : ℚ) 1 (1 / 2) ∧
      (∀ distance,
        (∃ n ≤ 201, ∀ m last, Walks turning (1 / 2) distance m last ↔
          m = n ∧ last = placeAlong turning (1 / 2) distance) ∧
        Between 0 1 (placeAlong turning (1 / 2) distance).location ∧
        (placeAlong turning (1 / 2) distance).point =
          pointAt turning (placeAlong turning (1 / 2) distance).location) ∧
      (∀ d₁ d₂, 0 ≤ d₁ → d₁ ≤ d₂ →
        Between (1 / 2) (placeAlong turning (1 / 2) d₂).location
          (placeAlong turning (1 / 2) d₁).location) ∧
      ∀ d₁ d₂, d₁ ≤ 0 → d₂ ≤ d₁ →
        Between (placeAlong turning (1 / 2) d₂).location (1 / 2)
          (placeAlong turning (1 / 2) d₁).location := by
  have hin : Between (0 : ℚ) 1 (1 / 2) := by
    decide +kernel
  have hpoint : ¬ IsPoint turning := by
    decide +kernel
  exact ⟨hpoint, hin, placeAlong_walks turning hin⟩

end Curve

end Patchbay
