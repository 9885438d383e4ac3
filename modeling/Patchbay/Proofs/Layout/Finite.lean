import Patchbay.Proofs.Canvas.Reading
import Patchbay.Proofs.Collision.Bounds
import Patchbay.Proofs.Layout.Bounds

/-!
# Layouts with finite places

A layout that is refused leaves the canvas as it was. One that goes through leaves all shapes at
finite places if the numbers are moderate (`placed_of_layOut`): the places that shapes are moved to
are not far out, and the collisions that are left to resolve keep them so.

Usable settings need not be moderate. An undefined margin passes all checks, and the layout then
puts every shape at an undefined place (`not_placed_undefinedMargin`).
-/

namespace Patchbay

open Double

namespace Layout

open Diagram

variable {d : Diagram Double} {around : Surroundings Double} {phases : Phases}
  {placed : Placement Double} {layers : List (List ShapeId)} {id : ShapeId} {s : Shape Double}

/-! ## Moving to the places -/

theorem shape?_setPosition (d : Diagram Double) (id i : ShapeId) (p : Point Double) :
    (d.setPosition id p).shape? i =
      if id = i then (d.shape? i).map ({ · with position := p }) else d.shape? i := by
  rw [setPosition, shape?_forgetCurves, shape?_modifyShape]

/-- A shape is put where it belongs, or not at all. -/
theorem exists_shape?_of_foldl (placed : Placement Double)
    (h : (placed.foldl (fun d x => d.setPosition x.1 x.2) d).shape? id = some s) :
    ∃ t, d.shape? id = some t ∧ (id ∉ placed.map Prod.fst ∧ s = t ∨
      ∃ p, (id, p) ∈ placed ∧ s = { t with position := p }) := by
  induction placed using List.reverseRecOn generalizing s with
  | nil => exact ⟨s, h, .inl ⟨List.not_mem_nil, rfl⟩⟩
  | append_singleton placed x ih =>
    rw [List.foldl_append] at h
    change (Diagram.setPosition _ x.1 x.2).shape? id = some s at h
    rw [shape?_setPosition] at h
    split at h
    · rename_i heq
      obtain ⟨t', ht', rfl⟩ := Option.map_eq_some_iff.1 h
      obtain ⟨t, ht, hcases⟩ := ih ht'
      have hmem : (id, x.2) ∈ placed ++ [x] := by rw [← heq]; simp
      refine ⟨t, ht, .inr ⟨x.2, hmem, ?_⟩⟩
      rcases hcases with ⟨-, rfl⟩ | ⟨p, -, rfl⟩ <;> rfl
    · rename_i hne
      obtain ⟨t, ht, ⟨hnot, rfl⟩ | ⟨p, hp, rfl⟩⟩ := ih h
      · refine ⟨s, ht, .inl ⟨?_, rfl⟩⟩
        simpa [hnot] using Ne.symm hne
      · exact ⟨t, ht, .inr ⟨p, List.mem_append_left _ hp, rfl⟩⟩

/-- If all shapes have places and these are not far out, no shape is far out then. -/
theorem steady_moveTo (hd : d.Moderate) (hplaced : ∀ x ∈ placed, x.2.Nearby 1 242)
    (hall : ∀ id, (d.shape? id).isSome → id ∈ placed.map Prod.fst) : (moveTo placed d).Steady := by
  intro id s hs
  obtain ⟨t, ht, hcases⟩ := exists_shape?_of_foldl placed hs
  rw [shape?, settle, Arena.get?_map] at ht
  obtain ⟨t, hshape, rfl⟩ := Option.map_eq_some_iff.1 ht
  obtain ⟨hwidth, hheight⟩ := (hd.shapes id t hshape).within_size
  rcases hcases with ⟨hnot, -⟩ | ⟨p, hp, rfl⟩
  · exact absurd (hall id (Option.isSome_of_eq_some hshape)) hnot
  · exact ⟨hwidth, hheight, hplaced _ hp, .origin _ _⟩

/-! ## Layouts -/

theorem ne_nil_of_mem_layersOf {layer : List ShapeId} (h : layer ∈ layersOf d phases) :
    layer ≠ [] := by
  have hkept := (List.mem_filter.1 h).2
  simpa using hkept

theorem mem_flatten_layersOf_iff (hs : d.Sound []) (hp : Phases.Layered d phases) :
    id ∈ (layersOf d phases).flatten ↔ (d.shape? id).isSome := by
  obtain ⟨first, loose, rest, harranged⟩ := exists_arranged hs hp
  rw [harranged.mem_iff (stepsOnce_layers hs hp), isSome_body?]

/-- The layers hold no shape twice. -/
theorem length_flatten_layersOf (hs : d.Sound []) (hp : Phases.Layered d phases) :
    (layersOf d phases).flatten.length ≤ d.size := by
  obtain ⟨first, loose, rest, harranged⟩ := exists_arranged hs hp
  have hnodup := harranged.flatten_eq ▸ harranged.nodup
  have hsub : (layersOf d phases).flatten ⊆ d.order := by
    intro id hid
    rw [hs.mem_order, isSome_body?]
    exact ⟨(mem_flatten_layersOf_iff hs hp).1 hid, List.not_mem_nil⟩
  exact (List.subperm_of_subset hnodup hsub).length_le

theorem map_fst_fitToCanvas (d : Diagram Double) (settings : Settings Double)
    (placed : Placement Double) :
    (fitToCanvas d settings placed).map Prod.fst = placed.map Prod.fst := by
  have hmap : ∀ (f : Point Double → Point Double) (placed : Placement Double),
      (placed.mapPlaces f).map Prod.fst = placed.map Prod.fst := by
    intro f placed
    rw [Placement.mapPlaces, List.map_map]
    rfl
  unfold fitToCanvas
  dsimp only
  split
  · exact hmap _ _
  · rw [hmap, hmap]

/-- Where shapes rest after they have been pushed apart is finite. -/
theorem finite_tidy (hmoderate : Collision.Moderate around around.settings.relayoutBias)
    (h : d.Steady) : ∀ id s, (tidy around layers d).shape? id = some s → s.position.Finite := by
  have hresolved := Running.foldl_keeps (P := Diagram.Steady)
    (f := fun d id => (Collision.resolve around around.settings.relayoutBias id d).diagram)
    (fun d id hd => Collision.steady_resolve hmoderate id hd) layers.flatten h
  intro id s hs
  rw [tidy, shape?, settle, Arena.get?_map] at hs
  obtain ⟨t, ht, rfl⟩ := Option.map_eq_some_iff.1 hs
  have hcentre := (hresolved id t ht).nearby_centre
  exact ⟨hcentre.x.isNumber.finite, hcentre.y.isNumber.finite⟩

/-- A layout with moderate numbers puts all shapes at finite places. -/
theorem finite_of_auto {d' : Diagram Double} (hs : d.Sound []) (hd : d.Moderate)
    (hp : Phases.Layered d phases)
    (hmoderate : Collision.Moderate around around.settings.relayoutBias)
    (h : (auto around phases).run d = (.ok layers, d')) :
    ∀ id s, d'.shape? id = some s → s.position.Finite := by
  rw [run_auto] at h
  split at h
  · rename_i placed hplaced
    obtain ⟨hspread, hcount⟩ := spread_placeLayers hs hd hmoderate.settings
      (fun _ => ne_nil_of_mem_layersOf) ((length_flatten_layersOf hs hp).trans hd.size) hplaced
    have hfit := nearby_fitToCanvas hd hmoderate.settings hspread hcount
    rw [← (Prod.mk.inj h).2]
    refine finite_tidy hmoderate (steady_moveTo hd hfit fun id hid => ?_)
    rw [map_fst_fitToCanvas, ← Placement.isSome_place?_iff, isSome_place?_of_placeLayers hplaced]
    exact (mem_flatten_layersOf_iff hs hp).2 hid
  · cases (Prod.mk.inj h).1

end Layout

namespace Canvas

open Diagram

/-- All shapes rest at finite places. -/
def Placed (c : Canvas Double) : Prop :=
  ∀ id s, c.diagram.shape? id = some s → s.position.Finite

/-- It is enough to look into all slots. -/
theorem placed_of_slots {c : Canvas Double} (h : c.diagram.shapeSlots.slots.all
    (·.all fun s => s.position.Finite) = true) : c.Placed := by
  intro id s hs
  have hmem := List.mem_of_getElem? (Option.join_eq_some_iff.1 hs)
  simpa using List.all_eq_true.1 h _ hmem

/-- The numbers of a canvas with moderate settings are moderate. -/
theorem moderate_surroundings {settings : Settings Double} (h : settings.Moderate) :
    Collision.Moderate ⟨settings, some (.zone settings.zoneBounds)⟩ settings.relayoutBias where
  settings := h
  bias := h.relayoutBias
  obstacle o ho := by
    cases ho
    have hwidth := h.width.mul h.zoneFraction (by decide)
    have hheight := hwidth.mul h.zoneAspect (by decide)
    have hleft := (h.width.mono (m := 128) (l := 1) (by decide)).sub hwidth (by decide)
    have hmiddle : settings.zoneBounds.center.Nearby 1 248 :=
      ⟨(hleft.add (hwidth.half (by decide)) (by decide)).mono (by decide),
        ((within_zero 1 192).add (hheight.half (by decide)) (by decide)).mono (by decide)⟩
    exact (hmiddle.add (.origin 1 248) (by decide)).mono (by decide)

theorem Reachable.surroundings_eq {c : Canvas Double} (h : c.Reachable) :
    c.surroundings = ⟨c.settings, some (.zone c.settings.zoneBounds)⟩ := by
  obtain ⟨settings, d, -, gestures, -, rfl⟩ := h
  rw [surroundings_after, settings_after]
  rfl

/-- A layout that is refused leaves the canvas as it was. Otherwise it leaves all shapes of a
reachable canvas at finite places if the numbers are moderate. -/
theorem placed_of_layOut {c : Canvas Double} (hc : c.Reachable) :
    (∃ e, layOut.run c = (.error e, c)) ∨
      ∃ layers c', layOut.run c = (.ok layers, c') ∧
        (c.settings.Moderate → c.diagram.Moderate → c'.Placed) := by
  rw [layOut, Running.run_get_bind]
  split
  · rename_i e _
    exact .inl ⟨e, rfl⟩
  · rename_i phases hphases
    rcases hrun : (Layout.auto c.surroundings phases).run c.diagram with ⟨e | layers, d⟩
    · obtain rfl := Layout.run_auto_error hrun
      exact .inl ⟨e, rfl⟩
    · refine .inr ⟨layers, _, rfl, fun hsettings hd => ?_⟩
      have hs := hc.inStep.sound
      have hmoderate := moderate_surroundings hsettings
      rw [← hc.surroundings_eq] at hmoderate
      exact Layout.finite_of_auto hs hd (Phases.layered_of_compute hs hphases) hmoderate hrun

/-- An input, a step and an output. -/
def chain : List (Diagram.Change Double) :=
  [.addShape (.rawInput "r" ⟨(100 : Nat), (100 : Nat)⟩),
   .addShape (.step "f" [⟨"x", none⟩] [⟨"y", none⟩] ⟨(300 : Nat), (300 : Nat)⟩),
   .addShape (.output "o" none ⟨(500 : Nat), (100 : Nat)⟩),
   .connect ⟨⟨0⟩, .output, 0⟩ ⟨⟨1⟩, .input, 0⟩,
   .connect ⟨⟨1⟩, .output, 0⟩ ⟨⟨2⟩, .input, 0⟩]

theorem after_chain : Diagram.blank.after chain = ((Diagram.blank.after (chain.take 3)).join
    ⟨⟨0⟩, .output, 0⟩ ⟨⟨1⟩, .input, 0⟩).join ⟨⟨1⟩, .output, 0⟩ ⟨⟨2⟩, .input, 0⟩ := by
  rw [← Diagram.run_connect_of_successors_eq_nil rfl rfl rfl rfl rfl rfl (by decide) rfl,
    ← Diagram.run_connect_of_successors_eq_nil rfl rfl rfl rfl rfl rfl (by decide) rfl]
  rfl

def chainCanvas : Canvas Double := ofDiagram .standard (Diagram.blank.after chain)

theorem placed_of_layOut_chain :
    (chainCanvas.Reachable ∧ chainCanvas.settings.Moderate ∧ chainCanvas.diagram.Moderate) ∧
      ∃ c', layOut.run chainCanvas = (.ok [[⟨0⟩], [⟨1⟩], [⟨2⟩]], c') ∧ c'.Placed := by
  have hreach : chainCanvas.Reachable := by
    refine ⟨.standard, _, ⟨chain, ?_, rfl⟩, [], by simp, rfl⟩
    simp [chain, Diagram.Change.Built, Shape.Built.rawInput, Shape.Built.step, Shape.Built.output]
  have hmoderate : chainCanvas.diagram.Moderate := by
    refine Diagram.moderate_of_slots ?_ ?_ <;> (rw [chainCanvas, after_chain]; decide +kernel)
  have hok : (layOut.run chainCanvas).1.toOption = some [[⟨0⟩], [⟨1⟩], [⟨2⟩]] := by
    rw [chainCanvas, after_chain]
    decide +kernel
  refine ⟨⟨hreach, Settings.moderate_standard, hmoderate⟩, ?_⟩
  rcases placed_of_layOut hreach with ⟨e, hrun⟩ | ⟨layers, c', hrun, hplaced⟩
  · rw [hrun] at hok
    cases hok
  · rw [hrun] at hok ⊢
    cases hok
    exact ⟨c', rfl, hplaced Settings.moderate_standard hmoderate⟩

/-- The standard settings, but the margin is undefined. -/
def undefinedMargin : Settings Double := { Settings.standard with margin := Double.nan }

def lonelyStep (settings : Settings Double) : Canvas Double :=
  (ofDiagram settings .blank).after
    [.addShape (.step "f" [] [⟨"y", .none⟩] ⟨(300 : Nat), (300 : Nat)⟩)]

theorem not_placed_undefinedMargin :
    (undefinedMargin.validate = .ok () ∧ (lonelyStep undefinedMargin).Reachable ∧
      (lonelyStep undefinedMargin).Placed) ∧
    (∃ layers, (layOut.run (lonelyStep undefinedMargin)).1 = .ok layers) ∧
      ¬ (layOut.run (lonelyStep undefinedMargin)).2.Placed := by
  have hreach : (lonelyStep undefinedMargin).Reachable := by
    refine ⟨undefinedMargin, .blank, ⟨[], by simp, rfl⟩, _, ?_, rfl⟩
    simp [Gesture.Built, Shape.Built.step]
  have hbefore : (lonelyStep undefinedMargin).diagram.shapeSlots.slots.all
      (·.all fun s => s.position.Finite) = true := by decide +kernel
  have hplaced := placed_of_slots hbefore
  have hok : (layOut.run (lonelyStep undefinedMargin)).1.toOption = some [[⟨0⟩]] := by
    decide +kernel
  have hafter : ((layOut.run (lonelyStep undefinedMargin)).2.diagram.shape? ⟨0⟩).any
      (fun s => ¬ s.position.Finite) = true := by decide +kernel
  have hlaid : ∃ layers, (layOut.run (lonelyStep undefinedMargin)).1 = .ok layers := by
    generalize (layOut.run (lonelyStep undefinedMargin)).1 = result at hok
    cases result with
    | error e => cases hok
    | ok layers => exact ⟨layers, rfl⟩
  have hnot : ¬ (layOut.run (lonelyStep undefinedMargin)).2.Placed := by
    intro hall
    obtain ⟨s, hs, hnot⟩ := (Option.any_eq_true _ _).1 hafter
    exact of_decide_eq_true hnot (hall _ s hs)
  exact ⟨⟨by decide +kernel, hreach, hplaced⟩, hlaid, hnot⟩

end Canvas

end Patchbay
