import Patchbay.Description.Describe
import Patchbay.Proofs.Canvas.Histories
import Patchbay.Proofs.Diagram.Complete
import Patchbay.Proofs.Pairing

/-!
# What a description says

`Describes` relates a complete diagram and an order of its steps to a description: every input, step
and output is described once and numbered in its turn, and what is said of a cable denotes the
magnet that the cable really leaves. A step number denotes a step by its position in the order.

The description of a reachable canvas describes its diagram, in the order of execution that the
canvas keeps (`describes_of_reachable`). That order is there, since a complete diagram has all its
cables, and in it the steps that feed a step come first.
-/

namespace Patchbay

namespace Description

open Diagram Relation
open List (Forall₂)
open Phases (inReading)

variable {α : Type} {d : Diagram α} {order : List ShapeId} {id : ShapeId}

/-! ## Single things -/

/-- The list names each shape of a kind once. -/
def Enumerates (d : Diagram α) (p : Shape α → Bool) (ids : List ShapeId) : Prop :=
  ids.Nodup ∧ ∀ id, id ∈ ids ↔ d.has p id = true

/-- The number and the name denote the magnet: zero and the label of an input of the pipeline, or
the position of a step in the order, from one, and the label of the magnet. -/
inductive Denotes (d : Diagram α) (order : List ShapeId) (s : Terminal) : Nat → String → Prop
  | input {shape : Shape α} : d.shape? s.shape = some shape → shape.isInput →
      Denotes d order s 0 shape.label
  | step {m : Magnet α} {n : Nat} : order[n]? = some s.shape → d.magnet? s = some m →
      Denotes d order s (n + 1) m.label

theorem Denotes.le_length {s : Terminal} {step : Nat} {name : String}
    (h : Denotes d order s step name) : step ≤ order.length := by
  cases h with
  | input => exact Nat.zero_le _
  | step hn => exact (List.getElem?_eq_some_iff.1 hn).1

theorem Denotes.mem {s : Terminal} {step : Nat} {name : String} (h : Denotes d order s step name) :
    d.has Shape.isInput s.shape = true ∨ s.shape ∈ order := by
  cases h with
  | input hshape hin => exact .inl (has_iff.2 ⟨_, hshape, hin⟩)
  | step hn => exact .inr (List.mem_of_getElem? hn)

/-- The number and the name denote the magnet from which a cable runs to this one. -/
def FedFrom (d : Diagram α) (order : List ShapeId) (t : Terminal) (step : Nat) (name : String) :
    Prop :=
  ∃ c s, d.ends? c = some (s, some t) ∧ Denotes d order s step name

def inputPlaces (id : ShapeId) (s : Shape α) : List Terminal :=
  (List.range s.inputs.length).map (⟨id, .input, ·⟩)

/-- The description of an input. -/
def OfInput (d : Diagram α) (id : ShapeId) (i : Input α) : Prop :=
  ∃ s, d.shape? id = some s ∧ s.label = i.name ∧
    s.kind = match i.datatype with
      | some t => .typedInput t
      | none => .rawInput

/-- The description of the cable into a magnet. -/
def OfCable (d : Diagram α) (order : List ShapeId) (t : Terminal) (k : CableIn) : Prop :=
  (∃ m, d.magnet? t = some m ∧ m.label = k.destName) ∧
    FedFrom d order t k.sourceStep k.sourceName

/-- The description of a step, with one cable for each input magnet. -/
def OfStep (d : Diagram α) (order : List ShapeId) (id : ShapeId) (q : Step α) : Prop :=
  ∃ s, d.shape? id = some s ∧ s.label = q.name ∧
    q.inputs = socketsOf s.inputs ∧ q.outputs = socketsOf s.outputs ∧
    Forall₂ (OfCable d order) (inputPlaces id s) q.cables

/-- The description of an output and its cable. -/
def OfOutput (d : Diagram α) (order : List ShapeId) (id : ShapeId) (o : Output α) : Prop :=
  ∃ s, d.shape? id = some s ∧ s.label = o.name ∧ s.kind = .output o.datatype ∧
    FedFrom d order ⟨id, .input, 0⟩ o.sourceStep o.sourceName

/-! ## Descriptions -/

/-- The description says what there is in the diagram, with the steps in the given order. -/
structure Describes (d : Diagram α) (order : List ShapeId) (p : Description α) : Prop where
  inputs : ∃ ids, Enumerates d Shape.isInput ids ∧ Forall₂ (OfInput d) ids p.inputs
  enumerates : Enumerates d Shape.isStep order
  steps : Forall₂ (OfStep d order) order p.steps
  outputs : ∃ ids, Enumerates d Shape.isOutput ids ∧ Forall₂ (OfOutput d order) ids p.outputs
  input_index : p.inputs.map Input.index = List.range' 1 p.inputs.length
  step_number : p.steps.map Step.number = List.range' 1 p.steps.length
  output_index : p.outputs.map Output.index = List.range' 1 p.outputs.length
  /-- Cables come from earlier steps. -/
  earlier : ∀ q ∈ p.steps, ∀ k ∈ q.cables, k.sourceStep < q.number
  known : ∀ o ∈ p.outputs, o.sourceStep ≤ p.steps.length

/-! ## Numbers -/

theorem numberIn_of_getElem? (h : order.Nodup) {n : Nat} (hn : order[n]? = some id) :
    numberIn order id = some (n + 1) := by
  have hidx : order.idxOf? id = some n := by
    obtain ⟨hlt, hget⟩ := List.getElem?_eq_some_iff.1 hn
    refine List.idxOf?_eq_some_iff.2 ⟨hlt, hget, fun j hj hjid => ?_⟩
    have : j = n := (List.Nodup.getElem_inj_iff h).1 (hjid.trans hget.symm)
    omega
  rw [numberIn, hidx]
  rfl

theorem exists_numberIn (hid : id ∈ order) :
    ∃ n, numberIn order id = some (n + 1) ∧ order[n]? = some id := by
  obtain ⟨n, hn⟩ := Option.isSome_iff_exists.1 (List.isSome_idxOf?.2 hid)
  obtain ⟨hlt, hget, -⟩ := List.idxOf?_eq_some_iff.1 hn
  refine ⟨n, ?_, List.getElem?_eq_some_iff.2 ⟨hlt, hget⟩⟩
  rw [numberIn, hn]
  rfl

/-- Each element of a list without repetition has its position as its number. -/
theorem map_numberIn (h : order.Nodup) :
    order.map (fun id => (numberIn order id).getD 0) = List.range' 1 order.length := by
  refine List.ext_getElem (by simp) fun n hn hn' => ?_
  have hlt : n < order.length := by simpa using hn
  rw [List.getElem_map, List.getElem_range', numberIn_of_getElem? h (List.getElem?_eq_getElem hlt)]
  simp [Nat.add_comm]

/-! ## What feeds a magnet -/

/-- The source that is given for a magnet with a cable denotes what feeds it. -/
theorem exists_sourceOf [Scalar α] (hs : d.Sound []) (ho : Enumerates d Shape.isStep order)
    {t : Terminal} {m : Magnet α} (hm : d.magnet? t = some m) (ht : t.side = .input)
    (hne : m.cables ≠ []) :
    ∃ step name, sourceOf d order m = some (step, name) ∧ FedFrom d order t step name := by
  obtain ⟨c, s, hcables, hc⟩ := hs.toWired.fed hm ht hne
  obtain ⟨k, hk, rfl, -⟩ := exists_cable_of_ends? hc
  obtain ⟨n, hn, -⟩ := hs.source hc
  obtain ⟨shape, hshape, -⟩ := Option.bind_eq_some_iff.1 hn
  by_cases hin : shape.isInput
  · refine ⟨0, shape.label, ?_, c, k.source, hc, .input hshape hin⟩
    simp [sourceOf, hcables, hk, hshape, hin]
  -- what is no input but has a magnet to leave from is a step, and the order lists it
  · have hstep := (hs.kind_of_source hc).resolve_left (by rwa [has_of_shape? hshape])
    obtain ⟨i, hi, hget⟩ := exists_numberIn ((ho.2 k.source.shape).2 hstep)
    refine ⟨i + 1, n.label, ?_, c, k.source, hc, .step hget hn⟩
    simp [sourceOf, hcables, hk, hshape, hin, hn, hi]

/-! ## The description of a canvas -/

theorem enumerates_of_perm {p : Shape α → Bool} {ids l : List ShapeId} (hl : d.ShapesListed [])
    (heq : l = d.order.filter (d.has p)) (hperm : ids.Perm l) : Enumerates d p ids := by
  refine ⟨hperm.nodup_iff.2 (heq ▸ hl.order_nodup.filter _), fun id => ?_⟩
  rw [hperm.mem_iff, heq, hl.mem_filter_has]

theorem forall₂_inputPlaces {s : Shape α} (hs : d.shape? id = some s) :
    Forall₂ (fun t m => t.side = .input ∧ d.magnet? t = some m) (inputPlaces id s) s.inputs := by
  refine List.forall₂_iff_get.2 ⟨by simp [inputPlaces], fun i hi hi' => ?_⟩
  simp only [inputPlaces, List.get_eq_getElem, List.getElem_map, List.getElem_range, true_and]
  exact (magnet?_of_shape? hs).trans (List.getElem?_eq_getElem hi')

variable [Scalar α] {c : Canvas α}

/-- The shapes of a kind, numbered in the order in which they are read. -/
theorem forall₂_numbered {p : Shape α → Bool} {l : List ShapeId} (hl : d.ShapesListed [])
    (heq : l = d.order.filter (d.has p)) : Enumerates d p (inReading d l) ∧
      Forall₂ (fun id x => d.shape? id = some x.1 ∧ p x.1 = true) (inReading d l) (numbered d l) ∧
      (numbered d l).map (·.2) = List.range' 1 (numbered d l).length := by
  have hids : Enumerates d p (inReading d l) := enumerates_of_perm hl heq (stableSort_perm _ l)
  have hlive : ∀ id ∈ inReading d l, (d.shape? id).isSome := by
    intro id hid
    obtain ⟨s, hs, -⟩ := has_iff.1 ((hids.2 id).1 hid)
    exact Option.isSome_of_eq_some hs
  obtain ⟨hpairs, hnumbers⟩ := forall₂_zipIdx_filterMap hlive 0
  refine ⟨hids, forall₂_imp_mem hpairs fun id hid x _ hx => ⟨hx, ?_⟩, ?_⟩
  · obtain ⟨s, hs, hp⟩ := has_iff.1 ((hids.2 id).1 hid)
    rw [hx] at hs
    exact Option.some.inj hs ▸ hp
  · have hlen : _ = (numbered d l).length := hpairs.length_eq
    rw [← hlen]
    exact hnumbers

theorem ofInput_ofShape {s : Shape α} (hs : d.shape? id = some s) (hin : s.isInput)
    (settings : Settings α) (index : Nat) : OfInput d id (.ofShape settings s index) := by
  refine ⟨s, hs, rfl, ?_⟩
  cases hk : s.kind <;> simp [Shape.isInput, hk, Input.ofShape] at hin ⊢

theorem ofStep_ofShape (hs : d.Sound []) (hc : d.Complete) (ho : Enumerates d Shape.isStep order)
    (hid : id ∈ order) {s : Shape α} (hshape : d.shape? id = some s) (settings : Settings α) :
    OfStep d order id (.ofShape settings d order id s) := by
  refine ⟨s, hshape, rfl, rfl, rfl, ?_⟩
  have hstep : id ∈ d.steps := hs.mem_steps.2 ((ho.2 id).1 hid)
  have hpairs := forall₂_imp_mem (forall₂_inputPlaces hshape)
    (S := fun t m => t.shape = id ∧ t.side = .input ∧ d.magnet? t = some m) ?_
  · refine (forall₂_filterMap_right hpairs ?_).imp ?_
    · rintro t m ⟨rfl, hside, hm⟩
      obtain ⟨step, name, hsource, -⟩ := exists_sourceOf hs ho hm hside (hc.step_magnet hstep hm)
      simp [hsource]
    · rintro t k ⟨m, ⟨rfl, hside, hm⟩, hk⟩
      obtain ⟨step, name, hsource, hfed⟩ := exists_sourceOf hs ho hm hside
        (hc.step_magnet hstep hm)
      rw [hsource] at hk
      cases hk
      exact ⟨⟨m, hm, rfl⟩, hfed⟩
  · intro t ht m _ hm
    obtain ⟨i, -, rfl⟩ := List.mem_map.1 ht
    exact ⟨rfl, hm⟩

theorem exists_ofShape? (hs : d.Sound []) (hc : d.Complete) (ho : Enumerates d Shape.isStep order)
    {s : Shape α} (hshape : d.shape? id = some s) (hout : s.isOutput) (settings : Settings α)
    (index : Nat) : ∃ o, Output.ofShape? settings d order s index = some o ∧ o.index = index ∧
      OfOutput d order id o := by
  obtain ⟨m, hm, hkind, hne⟩ := hc.output_magnet hs hshape hout
  have hmag : d.magnet? ⟨id, .input, 0⟩ = some m := by
    rw [magnet?_of_shape? hshape]
    simp [Shape.magnets, hm]
  obtain ⟨step, name, hsource, hfed⟩ := exists_sourceOf hs ho hmag rfl hne
  refine ⟨⟨s.label, index, step, name, (shares settings s.centre).1, (shares settings s.centre).2,
    m.datatype⟩, ?_, rfl, s, hshape, rfl, hkind, hfed⟩
  simp [Output.ofShape?, hm, hsource]

theorem of_ofShape?_eq_some {settings : Settings α} {s : Shape α} {index : Nat} {o : Output α}
    (h : Output.ofShape? settings d order s index = some o) :
    o.index = index ∧ (o.x, o.y) = shares settings s.centre := by
  obtain ⟨m, -, h⟩ := Option.bind_eq_some_iff.1 h
  obtain ⟨x, -, h⟩ := Option.bind_eq_some_iff.1 h
  cases h
  exact ⟨rfl, rfl⟩

/-- Steps come after those that feed them. -/
theorem lt_of_fedFrom {ph : Phases} (hs : d.Sound []) (hph : Phases.ByDepth d ph) {t : Terminal}
    {n j : Nat} {name : String} (hn : FedFrom d ph.flatten t n name)
    (hj : ph.flatten[j]? = some t.shape) : n ≤ j := by
  obtain ⟨c, s, hc, hdenotes⟩ := hn
  cases hdenotes with
  | input => exact Nat.zero_le j
  | @step m i hi hm =>
    have hmem : ∀ {k id}, ph.flatten[k]? = some id → id ∈ d.steps :=
      fun hk => hph.perm.mem_iff.1 (List.mem_of_getElem? hk)
    have hfeeds : d.StepFeeds s.shape t.shape := ⟨hmem hi, hmem hj, c, s, t, hc, rfl, rfl⟩
    have hnodup : ph.flatten.Nodup := by
      rw [hph.perm.nodup_iff, hs.steps_eq]
      exact hs.order_nodup.filter _
    exact lt_of_pair_sublist hnodup (hph.pair_sublist (hmem hi) (hmem hj) (.single hfeeds)) hi hj

theorem describe_eq_ok_iff {p : Description α} :
    c.describe = .ok p ↔ c.diagram.Complete ∧ ofCanvas c = p := by
  rw [← checkIntegrity_eq_ok_iff]
  unfold Canvas.describe
  cases c.diagram.checkIntegrity with
  | error e => exact ⟨fun h => (by cases h), fun h => (by cases h.1)⟩
  | ok u => exact ⟨fun h => ⟨rfl, Except.ok.inj h⟩, fun h => congrArg Except.ok h.2⟩

/-- Inputs are described in the order in which they are read. -/
theorem forall₂_inputs (hs : c.diagram.Sound []) :
    Forall₂ (fun id i => ∃ s n, c.diagram.shape? id = some s ∧ s.isInput = true ∧
      Input.ofShape c.settings s n = i) (inReading c.diagram c.diagram.inputs)
      (ofCanvas c).inputs := by
  obtain ⟨-, hpairs, -⟩ := forall₂_numbered hs.toShapesListed hs.inputs_eq
  exact List.forall₂_map_right_iff.2 (hpairs.imp fun id x hx => ⟨x.1, x.2, hx.1, hx.2, rfl⟩)

/-- Steps are described in the order of execution. -/
theorem forall₂_steps (ho : Enumerates c.diagram Shape.isStep (orderOf c)) :
    Forall₂ (fun id q => ∃ s, c.diagram.shape? id = some s ∧
      Step.ofShape c.settings c.diagram (orderOf c) id s = q) (orderOf c) (ofCanvas c).steps := by
  have hmade : ∀ id ∈ orderOf c, ((c.diagram.shape? id).map
      (Step.ofShape c.settings c.diagram (orderOf c) id)).isSome := by
    intro id hid
    obtain ⟨s, hshape, -⟩ := has_iff.1 ((ho.2 id).1 hid)
    simp [hshape]
  exact (forall₂_filterMap hmade).imp fun id q hq => Option.map_eq_some_iff.1 hq

/-- Outputs are described in the order in which they are read. -/
theorem forall₂_outputs (hs : c.diagram.Sound []) (hc : c.diagram.Complete)
    (ho : Enumerates c.diagram Shape.isStep (orderOf c)) :
    Forall₂ (fun id o => ∃ s n, c.diagram.shape? id = some s ∧ s.isOutput = true ∧
      Output.ofShape? c.settings c.diagram (orderOf c) s n = some o)
      (inReading c.diagram c.diagram.outputs) (ofCanvas c).outputs := by
  obtain ⟨-, hpairs, -⟩ := forall₂_numbered hs.toShapesListed hs.outputs_eq
  refine (forall₂_filterMap_right hpairs (f := fun x : Shape α × Nat =>
    Output.ofShape? c.settings c.diagram (orderOf c) x.1 x.2) fun id x hx => ?_).imp ?_
  · obtain ⟨o, ho, -⟩ := exists_ofShape? hs hc ho hx.1 hx.2 c.settings x.2
    exact Option.isSome_of_eq_some ho
  · rintro id o ⟨x, hx, ho⟩
    exact ⟨x.1, x.2, hx.1, hx.2, ho⟩

theorem inputs_ofCanvas (hs : c.diagram.Sound []) :
    Forall₂ (OfInput c.diagram) (inReading c.diagram c.diagram.inputs) (ofCanvas c).inputs ∧
    (ofCanvas c).inputs.map Input.index = List.range' 1 (ofCanvas c).inputs.length := by
  obtain ⟨-, -, hnumbers⟩ := forall₂_numbered hs.toShapesListed hs.inputs_eq
  refine ⟨(forall₂_inputs hs).imp ?_, ?_⟩
  · rintro id i ⟨s, n, hshape, hin, rfl⟩
    exact ofInput_ofShape hshape hin c.settings n
  · rw [ofCanvas, List.map_map, List.length_map]
    exact hnumbers

theorem steps_ofCanvas (hs : c.diagram.Sound []) (hc : c.diagram.Complete)
    (ho : Enumerates c.diagram Shape.isStep (orderOf c)) :
    Forall₂ (OfStep c.diagram (orderOf c)) (orderOf c) (ofCanvas c).steps ∧
    (ofCanvas c).steps.map Step.number = List.range' 1 (ofCanvas c).steps.length := by
  have hpairs := forall₂_steps ho
  refine ⟨forall₂_imp_mem hpairs fun id hid q _ hq => ?_, ?_⟩
  · obtain ⟨s, hshape, rfl⟩ := hq
    exact ofStep_ofShape hs hc ho hid hshape c.settings
  · rw [← hpairs.length_eq, ← map_numberIn ho.1]
    refine (map_eq_of_forall₂ (hpairs.imp fun id q hq => ?_)).symm
    obtain ⟨s, -, rfl⟩ := hq
    rfl

theorem outputs_ofCanvas (hs : c.diagram.Sound []) (hc : c.diagram.Complete)
    (ho : Enumerates c.diagram Shape.isStep (orderOf c)) :
    Forall₂ (OfOutput c.diagram (orderOf c)) (inReading c.diagram c.diagram.outputs)
      (ofCanvas c).outputs ∧
    (ofCanvas c).outputs.map Output.index = List.range' 1 (ofCanvas c).outputs.length := by
  obtain ⟨-, hpairs, hnumbers⟩ := forall₂_numbered hs.toShapesListed hs.outputs_eq
  have hof := forall₂_outputs hs hc ho
  refine ⟨hof.imp ?_, ?_⟩
  · rintro id o ⟨s, n, hshape, hout, hmade⟩
    obtain ⟨o', hmade', -, hdescribed⟩ := exists_ofShape? hs hc ho hshape hout c.settings n
    rw [hmade] at hmade'
    cases hmade'
    exact hdescribed
  · have hlen : (numbered c.diagram c.diagram.outputs).length = (ofCanvas c).outputs.length :=
      hpairs.length_eq.symm.trans hof.length_eq
    have hsome : ∀ x ∈ numbered c.diagram c.diagram.outputs,
        (Output.ofShape? c.settings c.diagram (orderOf c) x.1 x.2).isSome := by
      intro x hx
      obtain ⟨-, id, -, -, hlive⟩ := exists_of_mem_right hpairs hx
      obtain ⟨o, ho, -⟩ := exists_ofShape? hs hc ho hlive.1 hlive.2 c.settings x.2
      exact Option.isSome_of_eq_some ho
    rw [← hlen, ← hnumbers]
    exact (map_eq_of_forall₂ ((forall₂_filterMap hsome).imp fun x o hxo =>
      (of_ofShape?_eq_some hxo).1.symm)).symm

theorem describes_ofCanvas (h : c.InStep) (hc : c.diagram.Complete) :
    ∃ ph, c.phases = some ph ∧ Describes c.diagram ph.flatten (ofCanvas c) := by
  have hs := h.sound
  obtain ⟨ph, hph⟩ : ∃ ph, c.phases = some ph := by
    refine Option.ne_none_iff_exists'.1 fun hnone => ?_
    obtain ⟨id, hid, hmissing⟩ := h.phases_eq_none_iff.1 hnone
    exact hmissing (hc.cabled id hid)
  have hdepth := (h.layered ph hph).toByDepth
  have horder : orderOf c = ph.flatten := by simp [orderOf, hph]
  have ho : Enumerates c.diagram Shape.isStep ph.flatten :=
    enumerates_of_perm hs.toShapesListed hs.steps_eq hdepth.perm
  obtain ⟨hinputs, hindex⟩ := inputs_ofCanvas hs
  obtain ⟨hsteps, hnumber⟩ := steps_ofCanvas hs hc (horder ▸ ho)
  obtain ⟨houtputs, hturn⟩ := outputs_ofCanvas hs hc (horder ▸ ho)
  rw [horder] at hsteps houtputs
  have hi := (forall₂_numbered hs.toShapesListed hs.inputs_eq).1
  have hout := (forall₂_numbered hs.toShapesListed hs.outputs_eq).1
  refine ⟨ph, hph, ⟨⟨_, hi, hinputs⟩, ho, hsteps, ⟨_, hout, houtputs⟩, hindex, hnumber, hturn, ?_,
    ?_⟩⟩
  · intro q hq k hk
    obtain ⟨j, id, hj, hqj, s, hshape, -, -, -, hcables⟩ := exists_of_mem_right hsteps hq
    obtain ⟨i, t, ht, -, -, hfed⟩ := exists_of_mem_right hcables hk
    obtain ⟨place, -, rfl⟩ := List.mem_map.1 (List.mem_of_getElem? ht)
    have hle := lt_of_fedFrom hs hdepth hfed hj
    have hq : q.number = j + 1 := eq_of_map_eq_range' hnumber hqj
    omega
  · intro o ho
    obtain ⟨-, id, -, -, s, -, -, -, k, source, -, hdenotes⟩ := exists_of_mem_right houtputs ho
    exact hsteps.length_eq ▸ hdenotes.le_length

/-- The description of a reachable canvas says what there is, and gives the steps in the order of
execution that the canvas keeps. -/
theorem describes_of_reachable (h : c.Reachable) {p : Description α} (hp : c.describe = .ok p) :
    ∃ ph, c.phases = some ph ∧ Describes c.diagram ph.flatten p := by
  obtain ⟨hc, rfl⟩ := describe_eq_ok_iff.1 hp
  exact describes_ofCanvas h.inStep hc

/-- An input, a step and an output, joined by two cables. -/
def throughOneStep : List (Change Double) :=
  [.addShape (.rawInput "a" Point.origin),
   .addShape (.step "f" [⟨"x", none⟩] [⟨"y", none⟩] Point.origin),
   .addShape (.output "o" none Point.origin),
   .connect ⟨⟨0⟩, .output, 0⟩ ⟨⟨1⟩, .input, 0⟩,
   .connect ⟨⟨1⟩, .output, 0⟩ ⟨⟨2⟩, .input, 0⟩]

theorem after_throughOneStep : blank.after throughOneStep =
    ((blank.after (throughOneStep.take 3)).join ⟨⟨0⟩, .output, 0⟩ ⟨⟨1⟩, .input, 0⟩).join
      ⟨⟨1⟩, .output, 0⟩ ⟨⟨2⟩, .input, 0⟩ := by
  rw [← run_connect_of_successors_eq_nil rfl rfl rfl rfl rfl rfl (by decide) rfl,
    ← run_connect_of_successors_eq_nil rfl rfl rfl rfl rfl rfl (by decide) rfl]
  rfl

theorem reachable_throughOneStep : (blank.after throughOneStep).Reachable := by
  refine ⟨_, ?_, rfl⟩
  simp [throughOneStep, Change.Built, Shape.Built.rawInput, Shape.Built.step, Shape.Built.output]

/-- The description of that diagram. -/
def oneStep : Description Double where
  inputs := [⟨"a", 1, 0, 0, none⟩]
  steps := [⟨"f", 1, 0, 0, [⟨"x", 1, none⟩], [⟨"y", 1, none⟩], [⟨0, "a", "x"⟩]⟩]
  outputs := [⟨"o", 1, 1, "y", 0, 0, none⟩]

theorem describe_throughOneStep :
    (Canvas.ofDiagram .standard (blank.after throughOneStep)).describe = .ok oneStep := by
  rw [after_throughOneStep]
  rfl

theorem describes_throughOneStep :
    ((Canvas.ofDiagram .standard (blank.after throughOneStep)).Reachable ∧
      (Canvas.ofDiagram .standard (blank.after throughOneStep)).describe = .ok oneStep) ∧
    ∃ ph, (Canvas.ofDiagram .standard (blank.after throughOneStep)).phases = some ph ∧
      Describes (blank.after throughOneStep) ph.flatten oneStep := by
  have hreach : (Canvas.ofDiagram .standard (blank.after throughOneStep)).Reachable :=
    ⟨.standard, _, reachable_throughOneStep, [], by simp, rfl⟩
  exact ⟨⟨hreach, describe_throughOneStep⟩, describes_of_reachable hreach describe_throughOneStep⟩

end Description

end Patchbay
