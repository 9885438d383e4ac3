import Patchbay.Proofs.Phases.Stuck

/-!
# What the phases depend on

The phases of a diagram depend on its steps, on which step feeds which, and on which steps have all
their cables. Changes that leave these alone leave the phases right (`Layered.flow`), although the
steps of a shared phase may then be read in another order.
-/

namespace Patchbay

namespace Diagram

variable {α : Type} {d d' d'' : Diagram α} {id : ShapeId}

/-! ## The same flow -/

/-- The diagrams have the same steps, with the same cables between them and into them. -/
structure SameFlow (d d' : Diagram α) : Prop where
  steps : d'.steps = d.steps
  feeds : ∀ a b, d'.Feeds a b ↔ d.Feeds a b
  cabled : ∀ id ∈ d.steps, Phases.Cabled d' id ↔ Phases.Cabled d id

theorem SameFlow.refl (d : Diagram α) : d.SameFlow d := ⟨rfl, fun _ _ => .rfl, fun _ _ => .rfl⟩

theorem SameFlow.trans (h : d.SameFlow d') (h' : d'.SameFlow d'') : d.SameFlow d'' where
  steps := h'.steps.trans h.steps
  feeds a b := (h'.feeds a b).trans (h.feeds a b)
  cabled id hid := (h'.cabled id (h.steps.symm ▸ hid)).trans (h.cabled id hid)

/-- Inputs of steps are looked at only through their cables. -/
theorem cabled_congr (h : ∀ i, d'.magnet? ⟨id, .input, i⟩ = d.magnet? ⟨id, .input, i⟩) :
    Phases.Cabled d' id ↔ Phases.Cabled d id := by
  simp only [Phases.Cabled, h]

theorem Alike.sameFlow (h : Alike d d') : d.SameFlow d' where
  steps := by rw [h.lists]
  feeds := feeds_congr h.ends
  cabled _ _ := cabled_congr fun _ => h.magnet _

theorem ShapesListed.ne_nextShape (h : d.ShapesListed []) (hid : id ∈ d.steps) :
    id ≠ d.nextShape := by
  rintro rfl
  rw [h.mem_steps, has, shape?_nextShape] at hid
  cases hid

/-- A new shape that is no step. -/
theorem sameFlow_addShape (h : d.ShapesListed []) {s : Shape α} (hs : ¬ s.isStep) :
    d.SameFlow (d.addShape s) where
  steps := by simp [steps_addShape, hs]
  feeds := feeds_congr (ends?_addShape d s)
  cabled id hid := by
    refine cabled_congr fun i => ?_
    rw [magnet?_addShape, magnet?_placeShape, if_neg (h.ne_nextShape hid)]

/-- A shape goes that is no step. -/
theorem sameFlow_removeShape (h : d.ShapesListed []) (hid : d.has Shape.isStep id = false) :
    d.SameFlow (d.removeShape id) where
  steps := by
    rw [steps_removeShape]
    cases hs : d.shape? id with
    | none => rfl
    | some s =>
      have hstep : s.isStep = false := by rwa [has_of_shape? hs] at hid
      simp [hstep]
  feeds := feeds_congr (ends?_removeShape d id)
  cabled i hi := by
    refine cabled_congr fun j => ?_
    rw [magnet?_removeShape, if_neg]
    rintro rfl
    rw [h.mem_steps, hid] at hi
    cases hi

/-- A loose cable. -/
theorem sameFlow_start {s : Terminal} (hside : s.side = .output) (p : Point α) :
    d.SameFlow (d.start s p) where
  steps := rfl
  feeds a b := by
    refine ⟨feeds_of_feeds_start, ?_⟩
    rintro ⟨c, s', t, hc, rfl, rfl⟩
    refine ⟨c, s', t, ?_, rfl, rfl⟩
    rw [ends?_start, if_neg, hc]
    rintro rfl
    rw [ends?_nextCable] at hc
    cases hc
  cabled id _ := by
    refine cabled_congr fun i => ?_
    rw [magnet?_start, if_neg]
    rintro rfl
    cases hside

theorem SameFlow.stepFeeds (h : d.SameFlow d') (a b : ShapeId) :
    d'.StepFeeds a b ↔ d.StepFeeds a b := by
  simp only [StepFeeds, h.steps, h.feeds]

theorem SameFlow.chainTo (h : d.SameFlow d') {n : Nat} (hc : d.ChainTo id n) :
    d'.ChainTo id n := by
  induction hc with
  | start id => exact .start id
  | step hfeeds _ ih => exact .step ((h.stepFeeds _ _).2 hfeeds) ih

theorem SameFlow.symm (h : d.SameFlow d') : d'.SameFlow d where
  steps := h.steps.symm
  feeds a b := (h.feeds a b).symm
  cabled id hid := (h.cabled id (h.steps ▸ hid)).symm

theorem SameFlow.depth (h : d.SameFlow d') {n : Nat} (hd : d.Depth id n) : d'.Depth id n := by
  have hset : {k | d'.ChainTo id k} = {k | d.ChainTo id k} :=
    Set.ext fun k => ⟨h.symm.chainTo, h.chainTo⟩
  rw [Depth, hset]
  exact hd

end Diagram

/-! ## Phases that are right but for their order -/

namespace Phases

open Diagram

variable {α : Type} {d d' : Diagram α} {p : Phases}

theorem Layered.flow (h : Layered d p) (hf : d.SameFlow d') : Layered d' p where
  perm := hf.steps.symm ▸ h.perm
  depth n layer hlayer id hid := hf.depth (h.depth n layer hlayer id hid)
  ne_nil := h.ne_nil

end Phases

end Patchbay
