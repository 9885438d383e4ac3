import Patchbay.Proofs.Description.Building
import Patchbay.Proofs.Diagram.Places

/-!
# Where building puts things

Building puts one shape after the other and moves none of them: the shapes of a built diagram are
those that are described, in this order, each at the place that is described (`arrayed_of_build`).
-/

namespace Patchbay

namespace Diagram

variable {α : Type} {d d' : Diagram α} {shapes : List (Shape α)} {s t : Terminal} {c : CableId}

/-- The diagram has these shapes, which came one after the other and are where they were put. -/
structure Arrayed (d : Diagram α) (shapes : List (Shape α)) : Prop where
  nextShape : d.nextShape = ⟨shapes.length⟩
  order : d.order = (List.range shapes.length).map ShapeId.mk
  place : ∀ i, d.place? i = shapes[i.slot]?.map fun s => (s.position, s.shift)

theorem arrayed_blank : (blank : Diagram α).Arrayed [] where
  nextShape := rfl
  order := rfl
  place i := by simp [blank, place?, shape?]

theorem Arrayed.addShape (h : d.Arrayed shapes) (a : Shape α) :
    (d.addShape a).Arrayed (shapes ++ [a]) where
  nextShape := by
    have hslot := slot_nextShape_addShape d a
    rw [h.nextShape] at hslot
    rw [← ShapeId.slot_inj, hslot, List.length_append, List.length_singleton]
  order := by
    rw [order_addShape, h.order, h.nextShape, List.length_append, List.length_singleton,
      List.range_succ, List.map_append, List.map_singleton]
  place i := by
    have hi : i = d.nextShape ↔ i.slot = shapes.length := by
      rw [h.nextShape, ← ShapeId.slot_inj]
    rw [place?_addShape, place?_placeShape, getElem?_concat, h.place]
    by_cases hlast : i.slot = shapes.length
    · rw [if_pos (hi.2 hlast), if_pos hlast, Option.map_some]
    · rw [if_neg (mt hi.1 hlast), if_neg hlast]

theorem Arrayed.addShapes (h : d.Arrayed shapes) (more : List (Shape α)) :
    (d.addShapes more).Arrayed (shapes ++ more) := by
  induction more generalizing d shapes with
  | nil => rwa [List.append_nil]
  | cons a more ih =>
    have hrest := ih (h.addShape a)
    rwa [List.append_assoc] at hrest

variable [Scalar α]

theorem Arrayed.centre?_eq (h : d.Arrayed shapes) (i : ShapeId) :
    d.centre? i = shapes[i.slot]?.map Shape.centre := by
  rw [Diagram.centre?_eq, h.place, Option.map_map]
  rfl

theorem Arrayed.join (h : d.Arrayed shapes) (s t : Terminal) : (d.join s t).Arrayed shapes where
  nextShape := (nextShape_join d s t).trans h.nextShape
  order := (order_join d s t).trans h.order
  place i := (place?_join d s t i).trans (h.place i)

theorem Arrayed.connect (h : d.Arrayed shapes)
    (hrun : (Edit.connect s t).run d = (.ok c, d')) : d'.Arrayed shapes := by
  rw [Edit.run_connect] at hrun
  cases hfault : Edit.joinFault? d s t with
  | some e =>
    rw [hfault] at hrun
    cases hrun
  | none =>
    rw [hfault] at hrun
    cases hrun
    exact h.join s t

end Diagram

namespace Description

open Diagram Running

variable {α : Type} [Scalar α] {settings : Settings α} {d d' : Diagram α} {dir : Directory}
  {shapes : List (Shape α)}

theorem arrayed_of_addCables (h : d.Arrayed shapes) {q : Step α}
    (hrun : (Description.addCables dir q).run d = (.ok ⟨⟩, d')) : d'.Arrayed shapes := by
  obtain ⟨id, -, hloop⟩ := run_addCables_eq_ok_iff.1 hrun
  refine forM_keeps (P := fun e => e.Arrayed shapes) (fun k _ e e' he hk => ?_) hloop h
  obtain ⟨s, -, t, -, c, hconnect⟩ := run_addCable_eq_ok_iff.1 hk
  exact he.connect hconnect

theorem arrayed_of_addOutputs (h : d.Arrayed shapes) {outputs : List (Output α)}
    (hrun : (outputs.forM (addOutput settings dir)).run d = (.ok ⟨⟩, d')) :
    d'.Arrayed (shapes ++ outputs.map (Output.shape settings)) := by
  induction outputs generalizing d shapes with
  | nil =>
    cases hrun
    rwa [List.map_nil, List.append_nil]
  | cons o outputs ih =>
    obtain ⟨⟨⟩, e, hfirst, hrest⟩ := run_bind_eq_ok_iff.1 hrun
    obtain ⟨s, -, c, hconnect⟩ := run_addOutput_eq_ok_iff.1 hfirst
    have hall := ih ((h.addShape (o.shape settings)).connect hconnect) hrest
    rwa [List.append_assoc] at hall

theorem arrayed_shapesOf (settings : Settings α) (inputs : List (Input α)) (steps : List (Step α)) :
    (blank.addShapes (shapesOf settings inputs steps)).Arrayed (shapesOf settings inputs steps) :=
  arrayed_blank.addShapes _

/-- The shapes of a built diagram come in the order in which they are described. -/
theorem arrayed_of_build {p : Description α} (h : p.build settings = .ok d) :
    d.Arrayed (shapesOf settings (sortOn Input.index p.inputs) (sortOn Step.number p.steps) ++
      (sortOn Output.index p.outputs).map (Output.shape settings)) := by
  obtain ⟨⟨⟩, e, hcables, houtputs⟩ := run_bind_eq_ok_iff.1 ((build_eq_ok_iff rfl rfl rfl).1 h)
  refine arrayed_of_addOutputs ?_ houtputs
  exact forM_keeps (P := fun e => e.Arrayed (shapesOf settings (sortOn Input.index p.inputs)
    (sortOn Step.number p.steps))) (fun q _ e e' he hq => arrayed_of_addCables he hq) hcables
    (arrayed_shapesOf settings _ _)

end Description

end Patchbay
