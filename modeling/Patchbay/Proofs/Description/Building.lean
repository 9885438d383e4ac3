import Patchbay.Proofs.Description.Names

/-!
# Building step by step

Building lays the inputs and steps down and enters them in a directory, and then makes one cable
after the other, each from names that it looks up. So a diagram that has been built is sound and
unambiguous (`named_of_build`), since what could not be found by name has got no cable.
-/

namespace Patchbay

namespace Description

open Diagram Running

variable {α : Type} {d d' : Diagram α} {id : ShapeId} {s t : Terminal} {dir : Directory}
  {inputs : List (Input α)} {steps : List (Step α)}

/-! ## The directory -/

/-- The directory of the inputs and steps that have been laid down. -/
def entered (inputs : List (Input α)) (steps : List (Step α)) : Directory where
  inputs := inputs.zipIdx.map fun (i, n) => (i.name, ⟨n⟩)
  steps := (steps.zipIdx inputs.length).map fun (q, n) => (q.number, ⟨n⟩)

theorem mem_entered_inputs {name : String} :
    (name, id) ∈ (entered inputs steps).inputs ↔
      ∃ n i, id = ⟨n⟩ ∧ inputs[n]? = some i ∧ i.name = name := by
  simp only [entered, List.mem_map, Prod.exists, List.mk_mem_zipIdx_iff_getElem?, Prod.mk.injEq]
  constructor
  · rintro ⟨i, n, hn, rfl, rfl⟩
    exact ⟨n, i, rfl, hn, rfl⟩
  · rintro ⟨n, i, rfl, hn, rfl⟩
    exact ⟨i, n, hn, rfl, rfl⟩

theorem mem_entered_steps {number : Nat} :
    (number, id) ∈ (entered inputs steps).steps ↔
      ∃ n q, id = ⟨inputs.length + n⟩ ∧ steps[n]? = some q ∧ q.number = number := by
  simp only [entered, List.mem_map, Prod.exists, List.mk_mem_zipIdx_iff_le_and_getElem?_sub,
    Prod.mk.injEq]
  constructor
  · rintro ⟨q, i, ⟨hle, hi⟩, rfl, rfl⟩
    exact ⟨i - inputs.length, q, by rw [Nat.add_sub_cancel' hle], hi, rfl⟩
  · rintro ⟨n, q, rfl, hn, rfl⟩
    exact ⟨q, inputs.length + n, ⟨Nat.le_add_right _ n, by rwa [Nat.add_sub_cancel_left]⟩, rfl, rfl⟩

variable [Scalar α] {settings : Settings α}

/-! ## What each part of building does -/

/-- A cable is made between what its names denote. -/
theorem run_addCable_eq_ok_iff {k : CableIn} :
    (addCable dir id k).run d = (.ok ⟨⟩, d') ↔
      ∃ s, sourceMagnet d dir k.sourceStep k.sourceName = .ok s ∧
      ∃ t, magnetNamed d id .input k.destName = .ok t ∧
      ∃ c, (Edit.connect s t).run d = (.ok c, d') := by
  unfold addCable
  simp only [run_get_bind, run_liftM_bind_eq_ok_iff, run_bind_pure_eq_ok_iff]

/-- An output is made with a cable from what its names denote. -/
theorem run_addOutput_eq_ok_iff {o : Output α} :
    (addOutput settings dir o).run d = (.ok ⟨⟩, d') ↔
      ∃ s, sourceMagnet d dir o.sourceStep o.sourceName = .ok s ∧
      ∃ c, (Edit.connect s ⟨d.nextShape, .input, 0⟩).run (d.addShape (o.shape settings)) =
        (.ok c, d') := by
  have hadd : (Edit.addShape (o.shape settings)).run d =
      (.ok d.nextShape, d.addShape (o.shape settings)) := rfl
  unfold addOutput
  simp only [run_get_bind, run_liftM_bind_eq_ok_iff, run_bind_ok hadd, run_bind_pure_eq_ok_iff]

/-- Make the cables into a step. -/
def addCables (dir : Directory) (q : Step α) : Edit α Unit := do
  let dest ← dir.step q.number
  q.cables.forM (addCable dir dest)

theorem run_addCables_eq_ok_iff {q : Step α} :
    (addCables dir q).run d = (.ok ⟨⟩, d') ↔
      ∃ id, dir.step q.number = .ok id ∧ (q.cables.forM (addCable dir id)).run d = (.ok ⟨⟩, d') :=
  run_liftM_bind_eq_ok_iff

/-- The only cable into a step is made if its magnets are found and may be joined. -/
theorem run_addCables_singleton {q : Step α} {k : CableIn} {c : CableId} (hk : q.cables = [k])
    (hid : dir.step q.number = .ok id)
    (hs : sourceMagnet d dir k.sourceStep k.sourceName = .ok s)
    (ht : magnetNamed d id .input k.destName = .ok t)
    (hconnect : (Edit.connect s t).run d = (.ok c, d')) :
    (addCables dir q).run d = (.ok ⟨⟩, d') := by
  refine run_addCables_eq_ok_iff.2 ⟨id, hid, ?_⟩
  rw [hk, run_forM_singleton]
  exact run_addCable_eq_ok_iff.2 ⟨s, hs, t, ht, c, hconnect⟩

theorem run_addCables_of_step {q : Step α} (h : dir.step q.number = .ok id) (d : Diagram α) :
    (addCables dir q).run d = (q.cables.forM (addCable dir id)).run d :=
  run_bind_ok (by rw [run_liftM, h]) _

/-- The shapes of the inputs and steps. -/
def shapesOf (settings : Settings α) (inputs : List (Input α)) (steps : List (Step α)) :
    List (Shape α) :=
  inputs.map (Input.shape settings) ++ steps.map (Step.shape settings)

theorem Input.conforms_shape (settings : Settings α) (i : Input α) :
    (i.shape settings).body.Conforms := by
  unfold Input.shape
  split
  · exact (Shape.Built.typedInput _ _ _).conforms
  · exact (Shape.Built.rawInput _ _).conforms

theorem Step.conforms_shape (settings : Settings α) (q : Step α) :
    (q.shape settings).body.Conforms :=
  (Shape.Built.step _ _ _ _).conforms

theorem Output.conforms_shape (settings : Settings α) (o : Output α) :
    (o.shape settings).body.Conforms :=
  (Shape.Built.output _ _ _).conforms

theorem conforms_of_mem_shapesOf {a : Shape α} (ha : a ∈ shapesOf settings inputs steps) :
    a.body.Conforms := by
  rcases List.mem_append.1 ha with ha | ha
  · obtain ⟨i, -, rfl⟩ := List.mem_map.1 ha
    exact i.conforms_shape settings
  · obtain ⟨q, -, rfl⟩ := List.mem_map.1 ha
    exact q.conforms_shape settings

/-- Building lays the inputs and steps down, and then makes the cables and the outputs. -/
theorem run_assemble (settings : Settings α) (p : Description α) :
    (assemble settings p).run blank =
      let inputs := sortOn Input.index p.inputs
      let steps := sortOn Step.number p.steps
      let dir := entered inputs steps
      (do steps.forM (addCables dir)
          (sortOn Output.index p.outputs).forM (addOutput settings dir) : Edit α Unit).run
        (blank.addShapes (shapesOf settings inputs steps)) := by
  have hslot := slot_nextShape_addShapes (blank : Diagram α)
    ((sortOn Input.index p.inputs).map (Input.shape settings))
  rw [List.length_map, show (blank : Diagram α).nextShape.slot = 0 from rfl, Nat.zero_add] at hslot
  unfold assemble
  rw [run_bind_ok (run_mapM_addShape Input.name (Input.shape settings) _ blank)]
  dsimp only
  rw [run_bind_ok (run_mapM_addShape Step.number (Step.shape settings) _ _), hslot,
    ← addShapes_append]
  rfl

/-- Building succeeds if all cables into steps can be made, and then all outputs with theirs. -/
theorem build_eq_ok_iff {p : Description α} {outputs : List (Output α)}
    (hi : sortOn Input.index p.inputs = inputs) (hs : sortOn Step.number p.steps = steps)
    (ho : sortOn Output.index p.outputs = outputs) :
    p.build settings = .ok d ↔
      (do steps.forM (addCables (entered inputs steps))
          outputs.forM (addOutput settings (entered inputs steps)) : Edit α Unit).run
        (blank.addShapes (shapesOf settings inputs steps)) = (.ok ⟨⟩, d) := by
  have hrun := run_assemble settings p
  rw [hi, hs, ho] at hrun
  unfold build
  rw [← hrun]
  rcases (assemble settings p).run blank with ⟨_ | ⟨⟨⟩⟩, e⟩
  · exact ⟨fun h => (by cases h), fun h => (by cases h)⟩
  · exact ⟨fun h => (by cases h; rfl), fun h => (by cases h; rfl)⟩

/-! ## What is laid down -/

theorem consists_shapesOf (settings : Settings α) (inputs : List (Input α))
    (steps : List (Step α)) : (blank.addShapes (shapesOf settings inputs steps)).Consists
      ((shapesOf settings inputs steps).map Shape.body) [] :=
  consists_blank.addShapes fun _ => conforms_of_mem_shapesOf

theorem body?_of_input {n : Nat} {i : Input α} (h : inputs[n]? = some i) :
    (blank.addShapes (shapesOf settings inputs steps)).body? ⟨n⟩ =
      some (i.shape settings).body := by
  have hn : (inputs.map (Input.shape settings))[n]? = some (i.shape settings) := by
    rw [List.getElem?_map, h, Option.map_some]
  rw [(consists_shapesOf settings inputs steps).body, List.getElem?_map, shapesOf,
    List.getElem?_append_left (List.getElem?_eq_some_iff.1 hn).1, hn, Option.map_some]

theorem body?_of_step {n : Nat} {q : Step α} (h : steps[n]? = some q) :
    (blank.addShapes (shapesOf settings inputs steps)).body? ⟨inputs.length + n⟩ =
      some (q.shape settings).body := by
  have hn : (steps.map (Step.shape settings))[n]? = some (q.shape settings) := by
    rw [List.getElem?_map, h, Option.map_some]
  rw [(consists_shapesOf settings inputs steps).body, List.getElem?_map, shapesOf,
    List.getElem?_append_right (by simp), List.length_map, Nat.add_sub_cancel_left, hn,
    Option.map_some]

/-- The shapes that have been laid down are those of the inputs, and then those of the steps. -/
theorem body?_cases (h : ((blank.addShapes (shapesOf settings inputs steps)).body? id).isSome) :
    (∃ n i, id = ⟨n⟩ ∧ inputs[n]? = some i) ∨
    ∃ n q, id = ⟨inputs.length + n⟩ ∧ steps[n]? = some q := by
  rw [(consists_shapesOf settings inputs steps).body, List.getElem?_map, Option.isSome_map,
    isSome_getElem?, shapesOf, List.length_append, List.length_map, List.length_map] at h
  by_cases hlt : id.slot < inputs.length
  · exact .inl ⟨id.slot, inputs[id.slot], rfl, List.getElem?_eq_getElem hlt⟩
  · have hn : id.slot - inputs.length < steps.length := by omega
    refine .inr ⟨id.slot - inputs.length, _, ?_, List.getElem?_eq_getElem hn⟩
    rw [← ShapeId.slot_inj]
    simp only
    omega

theorem Input.isInput_shape (settings : Settings α) (i : Input α) :
    (i.shape settings).isInput = true := by
  unfold Input.shape
  split <;> rfl

theorem Input.label_shape (settings : Settings α) (i : Input α) :
    (i.shape settings).label = i.name := by
  unfold Input.shape
  split <;> rfl

/-- The directory lists what has been laid down. -/
theorem lists_entered (settings : Settings α) (inputs : List (Input α)) (steps : List (Step α)) :
    (entered inputs steps).Lists (blank.addShapes (shapesOf settings inputs steps)) where
  nodup := by
    have hslots : (entered inputs steps).inputs.map (fun x => x.2.slot) =
        List.range' 0 inputs.length := by
      rw [entered, List.map_map, ← List.zipIdx_map_snd]
      rfl
    exact List.Nodup.of_map _ (hslots ▸ List.nodup_range')
  input := by
    intro name id
    rw [mem_entered_inputs]
    constructor
    · rintro ⟨n, i, rfl, hn, rfl⟩
      have hbody : (blank.addShapes (shapesOf settings inputs steps)).body? ⟨n⟩ = _ :=
        body?_of_input hn
      refine ⟨?_, _, hbody, i.label_shape settings⟩
      rw [has_of_body? bodily_isInput hbody]
      exact i.isInput_shape settings
    · rintro ⟨hin, b, hb, rfl⟩
      rcases body?_cases (Option.isSome_of_eq_some hb) with ⟨n, i, rfl, hn⟩ | ⟨n, q, rfl, hn⟩
      · rw [body?_of_input hn] at hb
        cases hb
        exact ⟨n, i, rfl, hn, (i.label_shape settings).symm⟩
      · rw [has_of_body? bodily_isInput (body?_of_step hn)] at hin
        cases hin
  step := by
    intro number id hid
    obtain ⟨n, q, rfl, hn, -⟩ := mem_entered_steps.1 hid
    rw [has_of_body? bodily_isStep (body?_of_step hn)]
    rfl

/-! ## What building keeps -/

/-- The diagram is sound, and all its cables join what can be found by name. -/
structure Naming (dir : Directory) (d : Diagram α) : Prop where
  sound : d.Sound []
  unambiguous : d.Unambiguous
  lists : dir.Lists d

theorem Naming.addShape (h : Naming dir d) {a : Shape α} (hc : a.body.Conforms)
    (ha : a.isInput = false) : Naming dir (d.addShape a) where
  sound := h.sound.addShape hc
  unambiguous := h.unambiguous.addShape h.sound.toLinked ha
  lists := h.lists.grow (grows_addShape d ha)

/-- A new cable is sound, and may be there if its ends can be found by name. -/
theorem Naming.connect (h : Naming dir d) (hs : d.Nameable s) (ht : d.Sole t) {c : CableId}
    (hrun : (Edit.connect s t).run d = (.ok c, d')) : Naming dir d' := by
  rw [Edit.run_connect] at hrun
  cases hfault : Edit.joinFault? d s t with
  | some e =>
    rw [hfault] at hrun
    cases hrun
  | none =>
    rw [hfault] at hrun
    cases hrun
    obtain ⟨hside, hland⟩ := (Edit.joinFault?_eq_none_iff h.sound.toWired).1 hfault
    obtain ⟨m, n, hm, hn, -⟩ := hland.accepts
    have hlive := And.intro (isSome_body?_of_magnet? hm) (isSome_body?_of_magnet? hn)
    exact ⟨h.sound.join hside hland, h.unambiguous.join h.sound.toLinked hs ht hlive,
      h.lists.grow (grows_join d s t)⟩

theorem Naming.addCable (h : Naming dir d) {k : CableIn}
    (hrun : (addCable dir id k).run d = (.ok ⟨⟩, d')) : Naming dir d' := by
  obtain ⟨s, hs, t, ht, c, hconnect⟩ := run_addCable_eq_ok_iff.1 hrun
  obtain ⟨-, -, hsole⟩ := magnetNamed_eq_ok_iff.1 ht
  exact h.connect (h.lists.nameable h.sound.conforming hs).1 hsole hconnect

theorem Naming.addCables (h : Naming dir d) {q : Step α}
    (hrun : (addCables dir q).run d = (.ok ⟨⟩, d')) : Naming dir d' := by
  obtain ⟨id, -, hloop⟩ := run_addCables_eq_ok_iff.1 hrun
  exact forM_keeps (fun k _ e e' he hk => he.addCable hk) hloop h

theorem Naming.addOutput (h : Naming dir d) {o : Output α}
    (hrun : (addOutput settings dir o).run d = (.ok ⟨⟩, d')) : Naming dir d' := by
  obtain ⟨s, hs, c, hconnect⟩ := run_addOutput_eq_ok_iff.1 hrun
  obtain ⟨hnameable, hlive⟩ := h.lists.nameable h.sound.conforming hs
  have hadd := h.addShape (o.conforms_shape settings) rfl
  have hnew : (d.addShape (o.shape settings)).has Shape.isStep d.nextShape = false :=
    has_of_body? bodily_isStep (s := o.shape settings)
      (by rw [body?_addShape, body?_placeShape, if_pos rfl])
  exact hadd.connect (hnameable.grow (grows_addShape d rfl) hlive)
    (hadd.sound.conforming.sole hnew) hconnect

/-- What is built from a description is sound and unambiguous. -/
theorem named_of_build {p : Description α} (h : p.build settings = .ok d) :
    d.Sound [] ∧ d.Unambiguous := by
  obtain ⟨⟨⟩, e, hcables, houtputs⟩ := run_bind_eq_ok_iff.1 ((build_eq_ok_iff rfl rfl rfl).1 h)
  have hstart : Naming (entered (sortOn Input.index p.inputs) (sortOn Step.number p.steps))
      (blank.addShapes (shapesOf settings (sortOn Input.index p.inputs)
        (sortOn Step.number p.steps))) := by
    have hcons := consists_shapesOf settings (sortOn Input.index p.inputs)
      (sortOn Step.number p.steps)
    have hnone : ∀ c, (blank.addShapes (shapesOf settings (sortOn Input.index p.inputs)
        (sortOn Step.number p.steps))).ends? c = none := fun c => by rw [hcons.ends]; rfl
    refine ⟨hcons.sound, ⟨fun hc => ?_, fun hc => ?_⟩, lists_entered settings _ _⟩
    · rw [hnone] at hc
      cases hc
    · rw [hnone] at hc
      cases hc
  have hend := forM_keeps (fun o _ e e' he ho => he.addOutput ho) houtputs
    (forM_keeps (fun q _ e e' he hq => he.addCables hq) hcables hstart)
  exact ⟨hend.sound, hend.unambiguous⟩

end Description

end Patchbay
