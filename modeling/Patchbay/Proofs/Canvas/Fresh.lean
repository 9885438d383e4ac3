import Patchbay.Proofs.Canvas.Histories

/-!
# The phases of a canvas and fresh ones

Phases that hold each step of a diagram by its depth are determined up to the order in each of them
(`Layered.forall₂_perm`). Of a reachable canvas both the phases that it keeps and those that are
computed for its diagram are such phases, so what it keeps is never out of date: not in the steps,
nor in which steps share a phase (`Reachable.phases_fresh`).
-/

namespace Patchbay

namespace Phases

open Diagram

variable {α : Type} {d : Diagram α} {p q : Phases} {id : ShapeId} {n : Nat}
  {layer : List ShapeId}

/-! ## Phases of the same diagram -/

theorem ByDepth.mem_iff (h : ByDepth d p) (hlayer : p.layers[n]? = some layer) :
    id ∈ layer ↔ id ∈ d.steps ∧ d.Depth id n := by
  have hmem : ∀ {x : ShapeId} {k : Nat} {l : List ShapeId}, p.layers[k]? = some l → x ∈ l →
      x ∈ d.steps := by
    intro x k l hl hx
    exact h.perm.mem_iff.1 (List.mem_flatten.2 ⟨l, List.mem_of_getElem? hl, hx⟩)
  refine ⟨fun hid => ⟨hmem hlayer hid, h.depth n layer hlayer id hid⟩, ?_⟩
  rintro ⟨hid, hdepth⟩
  obtain ⟨l, hl, hmeml⟩ := List.mem_flatten.1 (h.perm.mem_iff.2 hid)
  obtain ⟨k, hk⟩ := List.mem_iff_getElem?.1 hl
  obtain rfl : k = n := (h.depth k l hk id hmeml).unique hdepth
  rw [hlayer] at hk
  exact Option.some.inj hk ▸ hmeml

/-- A phase of one lies no further down than the other reaches. -/
theorem Layered.length_le (h : Layered d p) (h' : Layered d q) :
    p.layers.length ≤ q.layers.length := by
  by_contra hlt
  obtain ⟨layer, hlayer⟩ : ∃ layer, p.layers[q.layers.length]? = some layer :=
    ⟨_, List.getElem?_eq_getElem (Nat.not_le.1 hlt)⟩
  obtain ⟨id, hid⟩ := List.exists_mem_of_ne_nil layer (h.ne_nil layer (List.mem_of_getElem? hlayer))
  obtain ⟨hstep, hdepth⟩ := (h.mem_iff hlayer).1 hid
  obtain ⟨n, hn, hdepth'⟩ := h'.exists_depth hstep
  obtain ⟨hbound, -⟩ := List.findIdx?_eq_some_iff_getElem.1 hn
  have := hdepth.unique hdepth'
  omega

/-- Phases of one diagram differ at most in the order of the steps in a phase. -/
theorem Layered.forall₂_perm (h : Layered d p) (h' : Layered d q) (hnodup : d.steps.Nodup) :
    List.Forall₂ List.Perm p.layers q.layers := by
  have hunique : ∀ {r : Phases} {n : Nat} {l : List ShapeId}, ByDepth d r →
      r.layers[n]? = some l → l.Nodup := fun hr hl =>
    (List.nodup_flatten.1 (hr.perm.nodup_iff.2 hnodup)).1 _ (List.mem_of_getElem? hl)
  refine List.forall₂_iff_get.2 ⟨(h.length_le h').antisymm (h'.length_le h), fun n hn hn' => ?_⟩
  have hp : p.layers[n]? = some (p.layers.get ⟨n, hn⟩) := List.getElem?_eq_getElem hn
  have hq : q.layers[n]? = some (q.layers.get ⟨n, hn'⟩) := List.getElem?_eq_getElem hn'
  refine (List.perm_ext_iff_of_nodup (hunique h.toByDepth hp) (hunique h'.toByDepth hq)).2 ?_
  intro id
  rw [h.mem_iff hp, h'.mem_iff hq]

end Phases

namespace Canvas

open Diagram

variable {α : Type} [Scalar α] {c : Canvas α} {p : Phases}

/-! ## What a canvas keeps -/

theorem InStep.phases_eq_none_iff_compute (h : c.InStep) :
    c.phases = none ↔ ∃ e, Phases.compute c.diagram = .error e := by
  rw [h.phases_eq_none_iff]
  rcases Phases.compute_cases h.sound with ⟨q, hq, hall⟩ | ⟨labels, herror, -, hmissing⟩
  · rw [hq]
    refine ⟨fun ⟨id, hid, hmissing⟩ => absurd (hall id hid) hmissing, ?_⟩
    rintro ⟨e, he⟩
    cases he
  · rw [herror]
    exact ⟨fun _ => ⟨_, rfl⟩, fun _ => hmissing⟩

theorem InStep.exists_compute_eq_ok (h : c.InStep) (hp : c.phases = some p) :
    ∃ q, Phases.compute c.diagram = .ok q := by
  cases hq : Phases.compute c.diagram with
  | ok q => exact ⟨q, rfl⟩
  | error e => rw [h.phases_eq_none_iff_compute.2 ⟨e, hq⟩] at hp; cases hp

theorem InStep.mem_flatten_iff (h : c.InStep) (hp : c.phases = some p) (id : ShapeId) :
    id ∈ p.flatten ↔ ∃ s, c.diagram.shape? id = some s ∧ s.isStep = true := by
  rw [(h.layered p hp).perm.mem_iff, h.sound.mem_steps, has, Option.any_eq_true]

theorem InStep.steps_nodup (h : c.InStep) : c.diagram.steps.Nodup :=
  h.sound.toShapesListed.steps_nodup

/-- A reachable canvas keeps no phases just when none can be computed for its diagram. Else it keeps
as many as are computed, with the same steps in each, and these are all the steps that are there. -/
theorem Reachable.phases_fresh (h : c.Reachable) :
    (c.phases = none ↔ ∃ e, Phases.compute c.diagram = .error e) ∧
    ∀ p, c.phases = some p →
      (∃ q, Phases.compute c.diagram = .ok q ∧ p.count = q.count ∧
        List.Forall₂ List.Perm p.layers q.layers) ∧
      p.flatten.Nodup ∧
      ∀ id, id ∈ p.flatten ↔ ∃ s, c.diagram.shape? id = some s ∧ s.isStep = true := by
  have hin := h.inStep
  refine ⟨hin.phases_eq_none_iff_compute, fun p hp => ⟨?_, ?_, hin.mem_flatten_iff hp⟩⟩
  · obtain ⟨q, hq⟩ := hin.exists_compute_eq_ok hp
    have hfresh := Phases.layered_of_compute hin.sound hq
    have hperm := (hin.layered p hp).forall₂_perm hfresh hin.steps_nodup
    exact ⟨q, hq, hperm.length_eq, hperm⟩
  · exact (hin.layered p hp).perm.nodup_iff.2 hin.steps_nodup

/-- Two steps that share the first phase, one of which feeds a third step. -/
def siblings : List (Change Double) :=
  [.addShape (.step "f" [] [⟨"y", none⟩] ⟨(150 : Nat), (120 : Nat)⟩),
   .addShape (.step "g" [] [⟨"y", none⟩] ⟨(300 : Nat), (200 : Nat)⟩),
   .addShape (.step "h" [⟨"x", none⟩] [⟨"z", none⟩] ⟨(500 : Nat), (400 : Nat)⟩),
   .connect ⟨⟨0⟩, .output, 0⟩ ⟨⟨2⟩, .input, 0⟩]

theorem after_siblings : Diagram.blank.after siblings =
    (Diagram.blank.after (siblings.take 3)).join ⟨⟨0⟩, .output, 0⟩ ⟨⟨2⟩, .input, 0⟩ := by
  rw [← run_connect_of_successors_eq_nil rfl rfl rfl rfl rfl rfl (by decide) rfl]
  rfl

def siblingCanvas : Canvas Double := ofDiagram .standard (Diagram.blank.after siblings)

/-- The first step is dragged behind the second one, and a cable is to be deleted that is not
there. -/
def draggedBehind : List (Gesture Double) :=
  [.moveShape ⟨0⟩ ⟨(0 : Nat), (300 : Nat)⟩, .finishDrag, .delete (.cable ⟨1⟩)]

/-- The drag has sorted the shared phase again, and the phases are still those of the diagram. -/
theorem phases_fresh_draggedBehind :
    ((siblingCanvas.after draggedBehind).Reachable ∧
      siblingCanvas.phases = some ⟨[[⟨0⟩, ⟨1⟩], [⟨2⟩]]⟩ ∧
      (siblingCanvas.after draggedBehind).phases = some ⟨[[⟨1⟩, ⟨0⟩], [⟨2⟩]]⟩) ∧
    ∃ q, Phases.compute (siblingCanvas.after draggedBehind).diagram = .ok q ∧ q.count = 2 ∧
      List.Forall₂ List.Perm [[⟨1⟩, ⟨0⟩], [⟨2⟩]] q.layers := by
  have hreach : (siblingCanvas.after draggedBehind).Reachable := by
    refine ⟨.standard, _, ⟨_, ?_, rfl⟩, _, ?_, rfl⟩
    · simp [siblings, Change.Built, Shape.Built.step]
    · simp [draggedBehind, Gesture.Built]
  have hbefore : siblingCanvas.phases = some ⟨[[⟨0⟩, ⟨1⟩], [⟨2⟩]]⟩ := by
    rw [siblingCanvas, after_siblings]
    decide +kernel
  have hphases : (siblingCanvas.after draggedBehind).phases = some ⟨[[⟨1⟩, ⟨0⟩], [⟨2⟩]]⟩ := by
    rw [siblingCanvas, after_siblings]
    decide +kernel
  obtain ⟨⟨q, hq, hcount, hperm⟩, -⟩ := hreach.phases_fresh.2 _ hphases
  exact ⟨⟨hreach, hbefore, hphases⟩, q, hq, hcount.symm, hperm⟩

end Canvas

end Patchbay
