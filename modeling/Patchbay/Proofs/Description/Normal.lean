import Patchbay.Proofs.Exact
import Patchbay.Proofs.Description.Depicting
import Patchbay.Proofs.Description.Placing
import Patchbay.Proofs.Description.Rebuilt
import Patchbay.Proofs.Description.RoundTrip

/-!
# Descriptions are normal forms

On scalars without rounding, a description of what has been built from a description says the same
again when it is built and described once more (`describe_again`). For a place is then found again
from its shares of the canvas (`place_shares`), and what is built from the description of a diagram
is that diagram, rebuilt (`exists_rebuilt`).
-/

namespace Patchbay

namespace Description

open Diagram Running
open List (Forall₂)
open Phases (inReading)

/-! ## The order of what is built -/

section

variable {α : Type} {d e : Diagram α} {p : Shape α → Bool} {ids : List ShapeId}
  {f : ShapeId → ShapeId} {g : CableId → CableId}

theorem Enumerates.filter_self (h : Enumerates d p ids) : ids.filter (d.has p) = ids :=
  List.filter_eq_self.2 fun id => (h.2 id).1

theorem Enumerates.filter_other {q : Shape α → Bool} (h : Enumerates d q ids)
    (hpq : ∀ s, q s = true → p s = false) : ids.filter (d.has p) = [] := by
  refine List.filter_eq_nil_iff.2 fun id hid => ?_
  rw [has_eq_false hpq ((h.2 id).1 hid)]
  exact Bool.false_ne_true

/-- Inputs, steps and outputs that come one after the other, under other names. -/
theorem lists_of_order_eq [Scalar α] {is order os : List ShapeId} (h : Isomorphism d e f g)
    (he : e.Sound []) (hi : Enumerates d Shape.isInput is) (ho : Enumerates d Shape.isStep order)
    (hout : Enumerates d Shape.isOutput os) (horder : e.order = (is ++ order ++ os).map f) :
    e.inputs = is.map f ∧ e.steps = order.map f ∧ e.outputs = os.map f := by
  have hlive : ∀ id ∈ is ++ order ++ os, (d.body? id).isSome := by
    simp only [List.mem_append, hi.2, ho.2, hout.2]
    rintro id ((hid | hid) | hid) <;> exact isSome_body?_of_has hid
  have hkind : ∀ {kind : Shape α → Bool}, Bodily kind → e.order.filter (e.has kind) =
      ((is ++ order ++ os).filter (d.has kind)).map f := fun hkind => by
    rw [horder, List.filter_map]
    exact congrArg _ (List.filter_congr fun id hid => h.has_eq hkind (hlive id hid))
  rw [he.inputs_eq, he.steps_eq, he.outputs_eq, hkind bodily_isInput, hkind bodily_isStep,
    hkind bodily_isOutput]
  simp only [List.filter_append, hi.filter_self, ho.filter_self, hout.filter_self,
    hi.filter_other fun _ => Shape.isStep_eq_false_of_isInput,
    hi.filter_other fun _ => Shape.isOutput_eq_false_of_isInput,
    ho.filter_other fun _ => Shape.isInput_eq_false_of_isStep,
    ho.filter_other fun _ => Shape.isOutput_eq_false_of_isStep,
    hout.filter_other fun _ => Shape.isInput_eq_false_of_isOutput,
    hout.filter_other fun _ => Shape.isStep_eq_false_of_isOutput, List.append_nil, List.nil_append,
    and_self]

end

/-! ## Places -/

variable {α : Type} [ExactScalar α] {settings : Settings α} {d : Diagram α}

/-- On exact scalars the reading order is an order. -/
instance : Std.TransCmp (Isometric.readingOrder (α := α)) := by
  have hlex : Isometric.readingOrder (α := α) = compareLex
      (compareOn fun p : Point α => Isometric.depth p)
      (compareOn fun p : Point α => Isometric.along p) := by
    funext p q
    simp only [Isometric.readingOrder, ExactScalar.totalOrder_eq, compareLex, compareOn]
  rw [hlex]
  infer_instance

/-- A place is found again from its shares of the width and the height. -/
theorem place_shares (hw : 0 < settings.width) (hh : 0 < settings.height) (p : Point α) :
    place settings (shares settings p).1 (shares settings p).2 + Point.origin = p := by
  obtain ⟨x, y⟩ := p
  change (⟨x / settings.width * settings.width + 0, y / settings.height * settings.height + 0⟩ :
    Point α) = _
  rw [div_mul_cancel₀ x hw.ne', div_mul_cancel₀ y hh.ne', add_zero, add_zero]

theorem shares_place (hw : 0 < settings.width) (hh : 0 < settings.height) (x y : α) :
    shares settings (place settings x y + Point.origin) = (x, y) := by
  change ((x * settings.width + 0) / settings.width,
    (y * settings.height + 0) / settings.height) = _
  rw [add_zero, add_zero, mul_div_cancel_right₀ x hw.ne', mul_div_cancel_right₀ y hh.ne']

theorem Input.centre_shape (hw : 0 < settings.width) (hh : 0 < settings.height) (s : Shape α)
    (n : Nat) : ((Input.ofShape settings s n).shape settings).centre = s.centre := by
  have hcentre : ∀ i : Input α, (i.shape settings).centre =
      place settings i.x i.y + Point.origin := fun i => by
    unfold Input.shape
    split <;> rfl
  rw [hcentre]
  exact place_shares hw hh s.centre

/-! ## Building again -/

/-- All that is described is at its place again. -/
theorem forall₂_centres {c : Canvas α} (hw : 0 < c.settings.width) (hh : 0 < c.settings.height)
    (hs : c.diagram.Sound []) (hc : c.diagram.Complete)
    (ho : Enumerates c.diagram Shape.isStep (orderOf c)) :
    Forall₂ (fun id a => c.diagram.centre? id = some a.centre)
      (inReading c.diagram c.diagram.inputs ++ orderOf c ++
        inReading c.diagram c.diagram.outputs)
      (shapesOf c.settings (ofCanvas c).inputs (ofCanvas c).steps ++
        (ofCanvas c).outputs.map (Output.shape c.settings)) := by
  have hcentre : ∀ {id s}, c.diagram.shape? id = some s →
      c.diagram.centre? id = some s.centre := fun h => by rw [centre?, h, Option.map_some]
  refine List.rel_append (List.rel_append ?_ ?_) ?_ <;> refine List.forall₂_map_right_iff.2 ?_
  · refine (forall₂_inputs hs).imp ?_
    rintro id i ⟨s, n, hshape, -, rfl⟩
    rw [hcentre hshape, Input.centre_shape hw hh]
  · refine (forall₂_steps ho).imp ?_
    rintro id q ⟨s, hshape, rfl⟩
    rw [hcentre hshape]
    exact congrArg some (place_shares hw hh s.centre).symm
  · refine (forall₂_outputs hs hc ho).imp ?_
    rintro id o ⟨s, n, hshape, -, hmade⟩
    have hplace := congrArg (fun x : α × α => place c.settings x.1 x.2 + Point.origin)
      (of_ofShape?_eq_some hmade).2
    dsimp only at hplace
    rw [hcentre hshape, ← place_shares hw hh s.centre, ← hplace]
    rfl

variable {e : Diagram α} {all : List ShapeId} {done : List Terminal} {shapes : List (Shape α)}

/-- The shapes of a copy come in the order in which they have been copied. -/
theorem order_of_copied (h : Copied d e all all done) (harrayed : e.Arrayed shapes)
    (hlen : all.length = shapes.length) : e.order = all.map (placeIn all) := by
  rw [harrayed.order, map_placeIn h.nodup, hlen]

theorem centre_of_copied (h : Copied d e all all done) (harrayed : e.Arrayed shapes)
    (hcentres : Forall₂ (fun id a => d.centre? id = some a.centre) all shapes) {id : ShapeId}
    (hid : (d.body? id).isSome) : e.centre? (placeIn all id) = d.centre? id := by
  obtain ⟨n, hn⟩ := List.mem_iff_getElem?.1 ((h.mem_all id).2 hid)
  obtain ⟨a, ha, hcentre⟩ := getElem?_of_forall₂ hcentres hn
  rw [h.placeIn_of_getElem? hn, harrayed.centre?_eq, ha, hcentre, Option.map_some]

/-- What is built from the description of a diagram is that diagram, rebuilt. -/
theorem exists_rebuilt (hw : 0 < settings.width) (hh : 0 < settings.height) (hs : d.Sound [])
    (hu : d.Unambiguous) (hloose : ∀ c s, d.ends? c ≠ some (s, none)) (hc : d.Complete) :
    ∃ e f g p, (ofCanvas (Canvas.ofDiagram settings d)).build settings = .ok e ∧
      Rebuilt d e f g p := by
  have hin := Canvas.InStep.ofDiagram settings hs
  obtain ⟨p, hp, hq⟩ := describes_ofCanvas hin hc
  have hcompute : Phases.compute d = .ok p := by
    change (Phases.compute d).toOption = some p at hp
    cases h : Phases.compute d with
    | error _ => simp [h, Except.toOption] at hp
    | ok p' => simpa [h, Except.toOption] using hp
  have horder : orderOf (Canvas.ofDiagram settings d) = p.flatten :=
    orderOf_ofDiagram settings hcompute
  have ho := hq.enumerates
  obtain ⟨hi, -, -⟩ := forall₂_numbered hs.toShapesListed hs.inputs_eq
  obtain ⟨hout, -, -⟩ := forall₂_numbered hs.toShapesListed hs.outputs_eq
  have hinputs := (inputs_ofCanvas (c := .ofDiagram settings d) hs).1
  have houtputs := (outputs_ofCanvas (c := .ofDiagram settings d) hs hc (horder ▸ ho)).1
  have hcentres := forall₂_centres (c := .ofDiagram settings d) hw hh hs hc (horder ▸ ho)
  rw [horder] at houtputs hcentres
  obtain ⟨hiff, hcopies⟩ := copied_of_describes hs hc hq hi hinputs hout houtputs settings
  obtain ⟨e, he⟩ := hiff.2 hu
  have hcopied := hcopies e he
  have harrayed := arrayed_of_build he
  rw [sortOn_of_numbered hq.input_index, sortOn_of_numbered hq.step_number,
    sortOn_of_numbered hq.output_index] at harrayed
  have hiso := hcopied.isomorphism hs (nodup_destinations ho hout)
    fun c s t => mem_destinations hs hc ho hout
  have hsound := (named_of_build he).1
  obtain ⟨heinputs, hesteps, heoutputs⟩ := lists_of_order_eq hiso hsound hi ho hout
    (order_of_copied hcopied harrayed hcentres.length_eq)
  exact ⟨e, _, _, p, he, hiso, hs, hsound, hc, hloose,
    fun id hid => centre_of_copied hcopied harrayed hcentres hid, hcompute, heinputs, hesteps,
    heoutputs⟩

/-- Once a built diagram has been described, building and describing it again changes nothing. -/
theorem describe_again (hw : 0 < settings.width) (hh : 0 < settings.height)
    {p q : Description α} (hp : p.build settings = .ok d)
    (hq : (Canvas.ofDiagram settings d).describe = .ok q) :
    ∃ d', q.build settings = .ok d' ∧ (Canvas.ofDiagram settings d').describe = .ok q := by
  obtain ⟨hs, hu⟩ := named_of_build hp
  obtain ⟨ends, sources, hmade, -⟩ := exists_made_of_build hp
  have hloose : ∀ c s, d.ends? c ≠ some (s, none) := by
    intro c s hends
    rw [hmade.consists.ends] at hends
    obtain ⟨w, -, hw⟩ := Option.map_eq_some_iff.1 hends
    cases hw
  obtain ⟨hc, rfl⟩ := describe_eq_ok_iff.1 hq
  obtain ⟨e, f, g, ph, he, hrebuilt⟩ := exists_rebuilt hw hh hs hu hloose hc
  exact ⟨e, he, describe_eq_ok_iff.2 ⟨hrebuilt.complete_after, hrebuilt.ofCanvas_eq settings⟩⟩

/-- An input, a step and an output, whose numbers leave gaps. -/
noncomputable def withGaps : Description ℝ where
  inputs := [⟨"a", 7, 1 / 4, 1 / 3, none⟩]
  steps := [⟨"f", 5, 1 / 3, 1 / 3, [⟨"x", 3, none⟩], [⟨"y", 2, none⟩], [⟨0, "a", "x"⟩]⟩]
  outputs := [⟨"o", 4, 5, "y", 3 / 4, 1 / 3, none⟩]

noncomputable def cabledWithGaps : Diagram ℝ :=
  (blank.addShapes (shapesOf .standard withGaps.inputs withGaps.steps)).join
    ⟨⟨0⟩, .output, 0⟩ ⟨⟨1⟩, .input, 0⟩

noncomputable def builtWithGaps : Diagram ℝ :=
  (cabledWithGaps.addShape (.output "o" none (place .standard (3 / 4) (1 / 3)))).join
    ⟨⟨1⟩, .output, 0⟩ ⟨⟨2⟩, .input, 0⟩

/-- The same with numbers that leave no gaps, and these places. -/
def withoutGaps (input step output : ℝ × ℝ) : Description ℝ where
  inputs := [⟨"a", 1, input.1, input.2, none⟩]
  steps := [⟨"f", 1, step.1, step.2, [⟨"x", 1, none⟩], [⟨"y", 1, none⟩], [⟨0, "a", "x"⟩]⟩]
  outputs := [⟨"o", 1, 1, "y", output.1, output.2, none⟩]

theorem build_withGaps : withGaps.build .standard = .ok builtWithGaps := by
  have hinputs : sortOn Input.index withGaps.inputs = withGaps.inputs := rfl
  have hsteps : sortOn Step.number withGaps.steps = withGaps.steps := rfl
  have houtputs : sortOn Output.index withGaps.outputs = withGaps.outputs := rfl
  refine (build_eq_ok_iff hinputs hsteps houtputs).2 (run_bind_eq_ok_iff.2
    ⟨⟨⟩, cabledWithGaps, ?_, ?_⟩)
  · exact (run_forM_singleton _ _ _).trans (run_addCables_singleton rfl rfl rfl rfl
      (Edit.run_connect_of_successors_eq_nil rfl rfl rfl rfl rfl rfl (by decide) rfl))
  · refine (run_forM_singleton _ _ _).trans (run_addOutput_eq_ok_iff.2 ⟨_, rfl, ⟨1⟩, ?_⟩)
    exact Edit.run_connect_of_successors_eq_nil rfl rfl rfl rfl rfl rfl (by decide) rfl

theorem describe_again_withGaps :
    ((0 < (Settings.standard : Settings ℝ).width ∧ 0 < (Settings.standard : Settings ℝ).height) ∧
      withGaps.build .standard = .ok builtWithGaps ∧
      (Canvas.ofDiagram .standard builtWithGaps).describe =
        .ok (withoutGaps (1 / 4, 1 / 3) (1 / 3, 1 / 3) (3 / 4, 1 / 3))) ∧
    ∃ d', (withoutGaps (1 / 4, 1 / 3) (1 / 3, 1 / 3) (3 / 4, 1 / 3)).build .standard = .ok d' ∧
      (Canvas.ofDiagram .standard d').describe =
        .ok (withoutGaps (1 / 4, 1 / 3) (1 / 3, 1 / 3) (3 / 4, 1 / 3)) := by
  have hw : 0 < (Settings.standard : Settings ℝ).width := Nat.cast_pos.2 (by decide : 0 < 800)
  have hh : 0 < (Settings.standard : Settings ℝ).height := Nat.cast_pos.2 (by decide : 0 < 600)
  have hdescribe : (Canvas.ofDiagram .standard builtWithGaps).describe = .ok (withoutGaps
      (shares .standard (place .standard (1 / 4) (1 / 3) + Point.origin))
      (shares .standard (place .standard (1 / 3) (1 / 3) + Point.origin))
      (shares .standard (place .standard (3 / 4) (1 / 3) + Point.origin))) := rfl
  simp only [shares_place hw hh] at hdescribe
  exact ⟨⟨⟨hw, hh⟩, build_withGaps, hdescribe⟩, describe_again hw hh build_withGaps hdescribe⟩

end Description

end Patchbay
