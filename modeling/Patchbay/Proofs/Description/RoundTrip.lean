import Patchbay.Load
import Patchbay.Proofs.Description.Rebuilding

/-!
# Round trips

From the description of a complete diagram a diagram is built just when all its names denote one
thing each, and it is isomorphic to the first (`build_of_describes`). What has been built from a
description has such names, so it can always be described and built again
(`exists_isomorphic_build`). What has been put together on a canvas need not have them: its
description can be refused (`load_sameNames`).
-/

namespace Patchbay

namespace Description

open Diagram Running
open List (Forall₂)

variable {α : Type} [Scalar α] {d : Diagram α} {order is os : List ShapeId} {c : Canvas α}
  {settings : Settings α}

/-- From the description of a complete diagram a diagram is built just when the names in it denote
one thing each, and then a copy, in which the shapes come in the order in which they are
described. -/
theorem copied_of_describes (hs : d.Sound []) (hc : d.Complete) {q : Description α}
    (hq : Describes d order q) (hi : Enumerates d Shape.isInput is)
    (hinputs : Forall₂ (OfInput d) is q.inputs) (hout : Enumerates d Shape.isOutput os)
    (houtputs : Forall₂ (OfOutput d order) os q.outputs) (settings : Settings α) :
    ((∃ d', q.build settings = .ok d') ↔ d.Unambiguous) ∧
      ∀ d', q.build settings = .ok d' →
        Copied d d' (is ++ order ++ os) (is ++ order ++ os) (destinations d order os) := by
  have hmem := fun c s t => mem_destinations (c := c) (s := s) (t := t) hs hc hq.enumerates hout
  have hnodup := nodup_destinations hq.enumerates hout
  have hstart := rebuilding_shapesOf hs hc hq hi hinputs hout settings
  have hcables := hstart.steps hs hq.steps hq.step_number (List.nodup_append'.1 hnodup).1
  have hall := hcables.bind (f := fun _ => q.outputs.forM (Description.addOutput settings
    (entered q.inputs q.steps))) fun e he => he.outputs hs houtputs settings hnodup
  -- every cable ends at a step or an output, and the loops go through all of those
  have hnamed : d.Unambiguous ↔ (∀ t ∈ order.flatMap (placesOf d), d.Named t) ∧
      ∀ id ∈ os, d.Named (outputPlace id) := by
    rw [unambiguous_iff]
    refine ⟨fun h => ⟨fun t _ => h t, fun id _ => h (outputPlace id)⟩, ?_⟩
    rintro ⟨hsteps, houts⟩ t c s hend
    rcases List.mem_append.1 (hmem c s t hend) with ht | ht
    · exact hsteps t ht c s hend
    · obtain ⟨id, hid, rfl⟩ := List.mem_map.1 ht
      exact houts id hid c s hend
  have hbuild : ∀ d', q.build settings = .ok d' ↔ _ := fun d' =>
    (build_eq_ok_iff (sortOn_of_numbered hq.input_index) (sortOn_of_numbered hq.step_number)
      (sortOn_of_numbered hq.output_index)).trans Iff.rfl
  refine ⟨?_, fun d' hd' => (hall.2 d' ((hbuild d').1 hd')).toCopied⟩
  rw [hnamed, ← hall.1]
  exact exists_congr hbuild

/-- What is built from the description of a complete diagram is isomorphic to it. -/
theorem build_of_describes (hs : d.Sound []) (hc : d.Complete) {q : Description α}
    (hq : Describes d order q) (settings : Settings α) :
    ((∃ d', q.build settings = .ok d') ↔ d.Unambiguous) ∧
      ∀ d', q.build settings = .ok d' → d.Isomorphic d' := by
  obtain ⟨is, hi, hinputs⟩ := hq.inputs
  obtain ⟨os, hout, houtputs⟩ := hq.outputs
  obtain ⟨hiff, hcopied⟩ := copied_of_describes hs hc hq hi hinputs hout houtputs settings
  refine ⟨hiff, fun d' hd' => ⟨_, _, (hcopied d' hd').isomorphism hs ?_ ?_⟩⟩
  · exact nodup_destinations hq.enumerates hout
  · exact fun c s t => mem_destinations hs hc hq.enumerates hout

/-- What has been built from a description, if it can be described, is built again from that
description, with other names of shapes and cables. -/
theorem exists_isomorphic_build {p q : Description α} (hp : p.build settings = .ok d)
    (hq : (Canvas.ofDiagram settings d).describe = .ok q) :
    ∃ d', q.build settings = .ok d' ∧ d.Isomorphic d' := by
  obtain ⟨hs, hu⟩ := named_of_build hp
  obtain ⟨hc, rfl⟩ := describe_eq_ok_iff.1 hq
  obtain ⟨ph, -, hdescribes⟩ := describes_ofCanvas (Canvas.InStep.ofDiagram settings hs) hc
  obtain ⟨hiff, hiso⟩ := build_of_describes hs hc hdescribes settings
  obtain ⟨d', hd'⟩ := hiff.2 hu
  exact ⟨d', hd', hiso d' hd'⟩

/-- An input and a step with a cable, as they are built before the output. -/
def cabledOneStep : Diagram Double :=
  (blank.addShapes (shapesOf .standard oneStep.inputs oneStep.steps)).join
    ⟨⟨0⟩, .output, 0⟩ ⟨⟨1⟩, .input, 0⟩

/-- What is built from the description of an input, a step and an output. -/
def builtOneStep : Diagram Double :=
  (cabledOneStep.addShape (.output "o" none Point.origin)).join
    ⟨⟨1⟩, .output, 0⟩ ⟨⟨2⟩, .input, 0⟩

theorem build_oneStep : oneStep.build .standard = .ok builtOneStep := by
  have hinputs : sortOn Input.index oneStep.inputs = oneStep.inputs := rfl
  have hsteps : sortOn Step.number oneStep.steps = oneStep.steps := rfl
  have houtputs : sortOn Output.index oneStep.outputs = oneStep.outputs := rfl
  refine (build_eq_ok_iff hinputs hsteps houtputs).2
    (run_bind_eq_ok_iff.2 ⟨⟨⟩, cabledOneStep, ?_, ?_⟩)
  · exact (run_forM_singleton _ _ _).trans (run_addCables_singleton rfl rfl rfl rfl
      (Edit.run_connect_of_successors_eq_nil rfl rfl rfl rfl rfl rfl (by decide) rfl))
  · refine (run_forM_singleton _ _ _).trans (run_addOutput_eq_ok_iff.2 ⟨_, rfl, ⟨1⟩, ?_⟩)
    exact Edit.run_connect_of_successors_eq_nil rfl rfl rfl rfl rfl rfl (by decide) rfl

theorem exists_isomorphic_build_oneStep :
    (oneStep.build .standard = .ok builtOneStep ∧
      (Canvas.ofDiagram .standard builtOneStep).describe = .ok oneStep) ∧
    ∃ d', oneStep.build .standard = .ok d' ∧ builtOneStep.Isomorphic d' :=
  have hdescribe : (Canvas.ofDiagram .standard builtOneStep).describe = .ok oneStep := rfl
  ⟨⟨build_oneStep, hdescribe⟩, exists_isomorphic_build build_oneStep hdescribe⟩

/-- What is on a reachable canvas, if it can be described, can be built from its description just when
the names in it denote one thing each. -/
theorem exists_build_iff_unambiguous (h : c.Reachable) {q : Description α}
    (hq : c.describe = .ok q) (settings : Settings α) :
    (∃ d', q.build settings = .ok d') ↔ c.diagram.Unambiguous := by
  obtain ⟨hc, rfl⟩ := describe_eq_ok_iff.1 hq
  obtain ⟨ph, -, hdescribes⟩ := describes_ofCanvas h.inStep hc
  exact (build_of_describes h.inStep.sound hc hdescribes settings).1

/-- Two inputs with the same name, a step that takes both, and an output. -/
def sameNames : List (Change Double) :=
  [.addShape (.rawInput "a" Point.origin),
   .addShape (.rawInput "a" Point.origin),
   .addShape (.step "f" [⟨"x", none⟩, ⟨"y", none⟩] [⟨"z", none⟩] Point.origin),
   .addShape (.output "o" none Point.origin),
   .connect ⟨⟨0⟩, .output, 0⟩ ⟨⟨2⟩, .input, 0⟩,
   .connect ⟨⟨1⟩, .output, 0⟩ ⟨⟨2⟩, .input, 1⟩,
   .connect ⟨⟨2⟩, .output, 0⟩ ⟨⟨3⟩, .input, 0⟩]

theorem after_sameNames : blank.after sameNames =
    (((blank.after (sameNames.take 4)).join ⟨⟨0⟩, .output, 0⟩ ⟨⟨2⟩, .input, 0⟩).join
      ⟨⟨1⟩, .output, 0⟩ ⟨⟨2⟩, .input, 1⟩).join ⟨⟨2⟩, .output, 0⟩ ⟨⟨3⟩, .input, 0⟩ := by
  rw [← run_connect_of_successors_eq_nil rfl rfl rfl rfl rfl rfl (by decide) rfl,
    ← run_connect_of_successors_eq_nil rfl rfl rfl rfl rfl rfl (by decide) rfl,
    ← run_connect_of_successors_eq_nil rfl rfl rfl rfl rfl rfl (by decide) rfl]
  rfl

def sameNamesCanvas : Canvas Double := .ofDiagram .standard (blank.after sameNames)

theorem reachable_sameNamesCanvas : sameNamesCanvas.Reachable := by
  refine ⟨.standard, _, ⟨sameNames, ?_, rfl⟩, [], by simp, rfl⟩
  simp [sameNames, Change.Built, Shape.Built.rawInput, Shape.Built.step, Shape.Built.output]

/-- The description of that canvas, in which the sources of two cables have the same name. -/
def sameNamesDescription : Description Double where
  inputs := [⟨"a", 1, 0, 0, none⟩, ⟨"a", 2, 0, 0, none⟩]
  steps := [⟨"f", 1, 0, 0, [⟨"x", 1, none⟩, ⟨"y", 2, none⟩], [⟨"z", 1, none⟩],
    [⟨0, "a", "x"⟩, ⟨0, "a", "y"⟩]⟩]
  outputs := [⟨"o", 1, 1, "z", 0, 0, none⟩]

theorem describe_sameNamesCanvas : sameNamesCanvas.describe = .ok sameNamesDescription := by
  rw [sameNamesCanvas, after_sameNames]
  rfl

theorem exists_build_iff_sameNames :
    (sameNamesCanvas.Reachable ∧ sameNamesCanvas.describe = .ok sameNamesDescription) ∧
    ((∃ d', sameNamesDescription.build .standard = .ok d') ↔
      (blank.after sameNames).Unambiguous) :=
  ⟨⟨reachable_sameNamesCanvas, describe_sameNamesCanvas⟩,
    exists_build_iff_unambiguous reachable_sameNamesCanvas describe_sameNamesCanvas .standard⟩

/-- The text that is saved of that canvas is read, but is refused. -/
theorem load_sameNames : sameNamesCanvas.Reachable ∧
    sameNamesCanvas.save = .ok sameNamesDescription.toJson ∧
    Canvas.load .standard sameNamesDescription.toJson = .error (.refused (.ambiguousLabel "a" 2)) := by
  refine ⟨reachable_sameNamesCanvas, ?_, ?_⟩
  · rw [Canvas.save, describe_sameNamesCanvas]
    rfl
  · have hstart : Text.Cursor.start sameNamesDescription.toJson =
        ⟨format.write sameNamesDescription 0, 0⟩ := by
      rw [Text.Cursor.start, toJson, String.toList_ofList]
    have hread : ofJson sameNamesDescription.toJson = .ok sameNamesDescription := by
      rw [ofJson, Json.Reader.readAll, hstart]
      decide +kernel
    have hbuild : sameNamesDescription.build .standard = .error (.ambiguousLabel "a" 2) := rfl
    rw [Canvas.load, hread]
    simp only [hbuild]

end Description

end Patchbay
