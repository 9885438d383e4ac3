import Mathlib.Order.Bounds.Basic
import Patchbay.Proofs.Diagram.Histories

/-!
# Chains of steps

The steps of a diagram form chains along its cables. Only steps have magnets on both sides, so a
path of cables from one step to another goes over steps only (`transGen_stepFeeds`). How many cables
the longest chain to a step has is its `Depth`: it is zero if no step feeds the step, and otherwise
one more than the greatest depth among those that do.
-/

namespace Patchbay

namespace Diagram

open Relation

variable {α : Type} {d : Diagram α} {a b id : ShapeId} {n : Nat}

/-! ## Cables between steps -/

/-- A cable runs from one step to another. -/
def StepFeeds (d : Diagram α) (a b : ShapeId) : Prop := a ∈ d.steps ∧ b ∈ d.steps ∧ d.Feeds a b

/-- A cable leaves an input or a step. -/
theorem Sound.kind_of_source [Scalar α] (h : d.Sound []) {c : CableId} {s : Terminal}
    {o : Option Terminal} (hc : d.ends? c = some (s, o)) :
    d.has Shape.isInput s.shape = true ∨ d.has Shape.isStep s.shape = true := by
  obtain ⟨m, hm, -⟩ := h.source hc
  obtain ⟨shape, hshape, hi⟩ := Option.bind_eq_some_iff.1 hm
  rw [h.source_side hc] at hi
  rw [has_of_shape? hshape, has_of_shape? hshape]
  exact (h.conforming.shape hshape).isInput_or_isStep (List.ne_nil_of_mem (List.mem_of_getElem? hi))

/-- A cable leads to a step or an output. -/
theorem Sound.kind_of_dest [Scalar α] (h : d.Sound []) {c : CableId} {s t : Terminal}
    (hc : d.ends? c = some (s, some t)) :
    d.has Shape.isStep t.shape = true ∨ d.has Shape.isOutput t.shape = true := by
  obtain ⟨m, hm, -⟩ := h.dest hc
  obtain ⟨shape, hshape, hi⟩ := Option.bind_eq_some_iff.1 hm
  rw [h.dest_side hc] at hi
  rw [has_of_shape? hshape, has_of_shape? hshape]
  exact (h.conforming.shape hshape).isStep_or_isOutput
    (List.ne_nil_of_mem (List.mem_of_getElem? hi))

/-- An output is fed by one shape. -/
theorem Sound.feeder_unique [Scalar α] (h : d.Sound []) (hid : d.has Shape.isOutput id = true)
    (ha : d.Feeds a id) (hb : d.Feeds b id) : a = b := by
  obtain ⟨c, s, t, hc, rfl, rfl⟩ := ha
  obtain ⟨c', s', t', hc', rfl, ht⟩ := hb
  obtain ⟨m, hm, -⟩ := h.dest hc
  obtain ⟨m', hm', -⟩ := h.dest hc'
  have hsame : t' = t := by
    rw [h.conforming.eq_of_isOutput hid hm, h.conforming.eq_of_isOutput (ht ▸ hid) hm', ht]
  have hcable : c' = c := h.toWired.eq_of_touches_input (touches_dest hc)
    (touches_dest (hsame ▸ hc')) (h.dest_side hc)
  rw [hcable, hc] at hc'
  cases hc'
  rfl

/-- The shapes with cables on both sides are steps. -/
theorem Sound.mem_steps_of_feeds [Scalar α] (h : d.Sound []) (hin : d.Feeds a id)
    (hout : d.Feeds id b) : id ∈ d.steps := by
  obtain ⟨c, s, t, hc, rfl, rfl⟩ := hin
  obtain ⟨c', s', t', hc', hid, rfl⟩ := hout
  rw [h.mem_steps]
  rcases hid ▸ h.kind_of_source hc' with hsource | hstep
  · rcases h.kind_of_dest hc with hstep | hout
    · exact hstep
    · rw [not_isOutput_of_isInput hsource] at hout
      cases hout
  · exact hstep

/-- A path of cables between steps goes over steps. -/
theorem Sound.transGen_stepFeeds [Scalar α] (h : d.Sound []) (ha : a ∈ d.steps) (hb : b ∈ d.steps)
    (hab : TransGen d.Feeds a b) : TransGen d.StepFeeds a b := by
  induction hab with
  | single hab => exact .single ⟨ha, hb, hab⟩
  | tail hax hxb ih =>
    obtain ⟨y, -, hyx⟩ := TransGen.tail'_iff.1 hax
    have hx := h.mem_steps_of_feeds hyx hxb
    exact .tail (ih hx) ⟨hx, hb, hxb⟩

/-! ## Depth -/

/-- A chain of that many cables between steps ends at the step. -/
inductive ChainTo (d : Diagram α) : ShapeId → Nat → Prop
  | start (id : ShapeId) : ChainTo d id 0
  | step {a b : ShapeId} {n : Nat} : d.StepFeeds a b → ChainTo d a n → ChainTo d b (n + 1)

/-- The longest chain to the step has that many cables. -/
def Depth (d : Diagram α) (id : ShapeId) (n : Nat) : Prop := IsGreatest {k | d.ChainTo id k} n

theorem chainTo_succ_iff : d.ChainTo id (n + 1) ↔ ∃ a, d.StepFeeds a id ∧ d.ChainTo a n := by
  constructor
  · intro h
    cases h with
    | step hfeeds h => exact ⟨_, hfeeds, h⟩
  · rintro ⟨a, hfeeds, h⟩
    exact .step hfeeds h

theorem Depth.unique {m : Nat} (hn : d.Depth id n) (hm : d.Depth id m) : n = m :=
  IsGreatest.unique hn hm

/-- A step is deeper than the steps that feed it. -/
theorem Depth.lt_of_stepFeeds {m : Nat} (ha : d.Depth a m) (hb : d.Depth b n)
    (hab : d.StepFeeds a b) : m < n :=
  hb.2 (ChainTo.step hab ha.1)

theorem Depth.zero_iff (h : d.Depth id n) : n = 0 ↔ ∀ a, ¬ d.StepFeeds a id := by
  constructor
  · rintro rfl a ha
    have := h.2 (ChainTo.step ha (.start a))
    omega
  · intro hnone
    have hchain := h.1
    cases hchain with
    | start => rfl
    | step ha => exact absurd ha (hnone _)

/-- The depth of a step is one more than the greatest depth of a step that feeds it. -/
theorem Depth.succ_iff (h : d.Depth id n) (hall : ∀ a, d.StepFeeds a id → ∃ m, d.Depth a m)
    {k : Nat} : n = k + 1 ↔ IsGreatest {m | ∃ a, d.StepFeeds a id ∧ d.Depth a m} k := by
  constructor
  · rintro rfl
    refine ⟨?_, ?_⟩
    · obtain ⟨a, ha, hk⟩ := chainTo_succ_iff.1 h.1
      obtain ⟨m, hm⟩ := hall a ha
      have hle : k ≤ m := hm.2 hk
      have hlt : m < k + 1 := hm.lt_of_stepFeeds h ha
      have hmk : m = k := by omega
      exact ⟨a, ha, hmk ▸ hm⟩
    · rintro m ⟨a, ha, hm⟩
      have hlt : m < k + 1 := hm.lt_of_stepFeeds h ha
      omega
  · rintro ⟨⟨a, ha, hk⟩, hmax⟩
    have hlt : k < n := hk.lt_of_stepFeeds h ha
    obtain ⟨j, rfl⟩ : ∃ j, n = j + 1 := ⟨n - 1, by omega⟩
    obtain ⟨b, hb, hj⟩ := chainTo_succ_iff.1 h.1
    obtain ⟨m, hm⟩ := hall b hb
    have hjm : j ≤ m := hm.2 hj
    have hmk : m ≤ k := hmax ⟨b, hb, hm⟩
    omega

/-- Steps are deeper than those upstream of them. -/
theorem Depth.lt_of_transGen {m : Nat} (hall : ∀ x ∈ d.steps, ∃ k, d.Depth x k)
    (hab : TransGen d.StepFeeds a b) (ha : d.Depth a m) (hb : d.Depth b n) : m < n := by
  induction hab generalizing n with
  | single hab => exact ha.lt_of_stepFeeds hb hab
  | tail _ hxb ih =>
    obtain ⟨k, hk⟩ := hall _ hxb.1
    exact Nat.lt_trans (ih hk) (hk.lt_of_stepFeeds hb hxb)

end Diagram

end Patchbay
