import Patchbay.Proofs.Diagram.Complete

/-!
# Pipelines that can be submitted

What the integrity check comes to in terms of cables. In a sound diagram it passes just when there
are inputs, steps and outputs and nothing else, and each magnet has a cable
(`Sound.complete_iff_submittable`). A cable that has landed is not asked for at output magnets: a
loose one will do there (`not_submittable_danglingInput`). In a diagram without loose cables the
check passes just when every magnet is joined to another
(`checkIntegrity_eq_ok_iff_submittable`).
-/

namespace Patchbay

namespace Shape

variable {α : Type}

theorem isFixed_eq_false_iff {s : Shape α} :
    s.isFixed = false ↔ s.isInput ∨ s.isStep ∨ s.isOutput := by
  cases hk : s.kind <;> simp [isFixed, isInput, isStep, isOutput, hk]

/-! ## Magnets with cables -/

def Cabled (s : Shape α) : Prop := ∀ m ∈ s.allMagnets, m.cables ≠ []

theorem connectedCount_eq_one_iff {ms : List (Magnet α)} (h : ms.length = 1) :
    Diagram.connectedCount ms = 1 ↔ ∀ m ∈ ms, m.cables ≠ [] := by
  obtain ⟨m, rfl⟩ := List.length_eq_one_iff.1 h
  simp [Diagram.connectedCount, List.countP_singleton, Magnet.isConnected]

variable [Scalar α]

theorem Body.Conforms.connectedCount_outputs {s : Shape α} (h : s.body.Conforms)
    (hin : s.isInput) : Diagram.connectedCount s.outputs = 1 ↔ s.Cabled := by
  rw [connectedCount_eq_one_iff (h.length_outputs hin), Cabled, allMagnets,
    h.inputs_eq_nil hin, List.nil_append]

theorem Body.Conforms.connectedCount_inputs {s : Shape α} (h : s.body.Conforms)
    (hout : s.isOutput) : Diagram.connectedCount s.inputs = 1 ↔ s.Cabled := by
  obtain ⟨datatype, hk⟩ := isOutput_iff.1 hout
  obtain ⟨m, hm, -⟩ := h.inputs_of_output hk
  have hnil : s.outputs = [] := List.map_eq_nil_iff.1 (h.outputs_eq_nil hk)
  rw [connectedCount_eq_one_iff (by rw [hm]; rfl), Cabled, allMagnets, hnil, List.append_nil]

end Shape

namespace Diagram

variable {α : Type} {d : Diagram α} {t : Terminal} {c : CableId}

/-! ## What must be there -/

/-- The diagram has inputs, steps and outputs and nothing else, and each magnet is connected, in
whatever sense. -/
structure Submittable (d : Diagram α) (connected : Terminal → Prop) : Prop where
  exists_input : ∃ id s, d.shape? id = some s ∧ s.isInput
  exists_step : ∃ id s, d.shape? id = some s ∧ s.isStep
  exists_output : ∃ id s, d.shape? id = some s ∧ s.isOutput
  no_zone : ∀ id s, d.shape? id = some s → s.isFixed = false
  connected : ∀ t m, d.magnet? t = some m → connected t

theorem Submittable.congr {p q : Terminal → Prop} (h : d.Submittable p)
    (hpq : ∀ t m, d.magnet? t = some m → p t → q t) : d.Submittable q :=
  { h with connected := fun t m hm => hpq t m hm (h.connected t m hm) }

/-- Both ends of the cable are at magnets, and one of these is at the place. -/
def Joins (d : Diagram α) (c : CableId) (t : Terminal) : Prop :=
  ∃ s u, d.ends? c = some (s, some u) ∧ (t = s ∨ t = u)

theorem Joins.touches (h : d.Joins c t) : d.Touches c t := by
  obtain ⟨s, u, hc, rfl | rfl⟩ := h
  · exact touches_source hc
  · exact touches_dest hc

/-- A cable at an input magnet has landed. -/
theorem Wired.joins (h : d.Wired) (hc : d.Touches c t) (ht : t.side = .input) : d.Joins c t := by
  obtain ⟨m, hm⟩ := Option.isSome_iff_exists.1 (h.end_magnet hc)
  obtain ⟨s, hs⟩ := h.landed hm ht ((h.mem_cables hm c).2 hc)
  exact ⟨s, t, hs, .inr rfl⟩

/-- Without loose cables, a cable that ends at a magnet joins it to another. -/
theorem Touches.joins (hc : d.Touches c t) (hloose : ∀ c s, d.ends? c ≠ some (s, none)) :
    d.Joins c t := by
  obtain ⟨s, _ | u, hso, hend⟩ := hc
  · exact absurd hso (hloose c s)
  · exact ⟨s, u, hso, hend.imp_right fun h => (Option.some.inj h).symm⟩

theorem Linked.exists_touches_iff (h : d.Linked) {m : Magnet α} (hm : d.magnet? t = some m) :
    (∃ c, d.Touches c t) ↔ m.cables ≠ [] := by
  constructor
  · rintro ⟨c, hc⟩
    exact List.ne_nil_of_mem ((h.mem_cables hm c).2 hc)
  · intro hne
    obtain ⟨c, hc⟩ := List.exists_mem_of_ne_nil _ hne
    exact ⟨c, (h.mem_cables hm c).1 hc⟩

/-! ## What the check looks at -/

/-- The magnets of a shape are those at the places of the shape. -/
theorem cabled_iff {id : ShapeId} {s : Shape α} (hs : d.shape? id = some s) :
    s.Cabled ↔ ∀ t m, t.shape = id → d.magnet? t = some m → m.cables ≠ [] := by
  constructor
  · rintro h ⟨i, side, j⟩ m rfl hm
    rw [magnet?_of_shape? hs] at hm
    have hmem := List.mem_of_getElem? hm
    cases side with
    | input => exact h m (List.mem_append_left _ hmem)
    | output => exact h m (List.mem_append_right _ hmem)
  · intro h m hm
    rcases List.mem_append.1 hm with hm | hm
    · obtain ⟨j, hj⟩ := List.mem_iff_getElem?.1 hm
      exact h ⟨id, .input, j⟩ m rfl ((magnet?_of_shape? hs).trans hj)
    · obtain ⟨j, hj⟩ := List.mem_iff_getElem?.1 hm
      exact h ⟨id, .output, j⟩ m rfl ((magnet?_of_shape? hs).trans hj)

/-- A list of the shapes of a kind holds those that are there. -/
theorem ShapesListed.mem_present (h : d.ShapesListed []) {p : Shape α → Bool}
    {ids : List ShapeId} (hids : ids = d.order.filter (d.has p)) {s : Shape α} :
    s ∈ d.present ids ↔ ∃ id, d.shape? id = some s ∧ p s := by
  simp only [present, List.mem_filterMap, hids, h.mem_filter_has]
  refine exists_congr fun id => ?_
  rw [and_comm]
  exact and_congr_right fun hs => by rw [has_of_shape? hs]

theorem ShapesListed.ne_nil_iff (h : d.ShapesListed []) {p : Shape α → Bool}
    {ids : List ShapeId} (hids : ids = d.order.filter (d.has p)) :
    ids ≠ [] ↔ ∃ id s, d.shape? id = some s ∧ p s := by
  have hmem : ∀ id, id ∈ ids ↔ ∃ s, d.shape? id = some s ∧ p s := by
    intro id
    rw [hids, h.mem_filter_has, has_iff]
  constructor
  · intro hne
    obtain ⟨id, hid⟩ := List.exists_mem_of_ne_nil _ hne
    exact ⟨id, (hmem id).1 hid⟩
  · rintro ⟨id, hid⟩
    exact List.ne_nil_of_mem ((hmem id).2 hid)

variable [Scalar α]

/-- The check passes just when there is something of each kind but no zone, and each magnet has a
cable. -/
theorem Sound.complete_iff_submittable (hs : d.Sound []) :
    d.Complete ↔ d.Submittable fun t => ∃ c, d.Touches c t := by
  have hinput : ∀ s ∈ d.present d.inputs, connectedCount s.outputs = 1 ↔ s.Cabled := by
    intro s hmem
    obtain ⟨id, hid, hin⟩ := (hs.mem_present hs.inputs_eq).1 hmem
    exact (hs.conforming.shape hid).connectedCount_outputs hin
  have houtput : ∀ s ∈ d.present d.outputs, connectedCount s.inputs = 1 ↔ s.Cabled := by
    intro s hmem
    obtain ⟨id, hid, hout⟩ := (hs.mem_present hs.outputs_eq).1 hmem
    exact (hs.conforming.shape hid).connectedCount_inputs hout
  constructor
  · intro h
    refine ⟨(hs.ne_nil_iff hs.inputs_eq).1 h.inputs_ne_nil,
      (hs.ne_nil_iff hs.steps_eq).1 h.steps_ne_nil,
      (hs.ne_nil_iff hs.outputs_eq).1 h.outputs_ne_nil,
      fun id s hid => Shape.isFixed_eq_false_iff.2 (h.isInput_or hs.toShapesListed hid),
      fun t m hm => (hs.exists_touches_iff hm).2 ?_⟩
    obtain ⟨s, hid, -⟩ := Option.bind_eq_some_iff.1 hm
    suffices hcabled : s.Cabled from (cabled_iff hid).1 hcabled t m rfl hm
    rcases h.isInput_or hs.toShapesListed hid with hk | hk | hk
    · have hmem := (hs.mem_present hs.inputs_eq).2 ⟨_, hid, hk⟩
      exact (hinput s hmem).1 (h.input s hmem)
    · have hmem := (hs.mem_present hs.steps_eq).2 ⟨_, hid, hk⟩
      intro m hm
      simpa [Magnet.isConnected] using h.step s hmem m hm
    · have hmem := (hs.mem_present hs.outputs_eq).2 ⟨_, hid, hk⟩
      exact (houtput s hmem).1 (h.output s hmem)
  · intro h
    have hcabled : ∀ id s, d.shape? id = some s → s.Cabled := by
      intro id s hid
      exact (cabled_iff hid).2 fun t m _ hm => (hs.exists_touches_iff hm).1 (h.connected t m hm)
    have hinputs := (hs.ne_nil_iff hs.inputs_eq).2 h.exists_input
    refine { nonempty := ?_, inputs_ne_nil := hinputs,
             steps_ne_nil := (hs.ne_nil_iff hs.steps_eq).2 h.exists_step,
             outputs_ne_nil := (hs.ne_nil_iff hs.outputs_eq).2 h.exists_output,
             size_eq := hs.length_order_iff.2 fun id s hid =>
               Shape.isFixed_eq_false_iff.1 (h.no_zone id s hid),
             input := fun s hmem => (hinput s hmem).2 ?_,
             output := fun s hmem => (houtput s hmem).2 ?_,
             step := fun s hmem m hm => ?_ }
    · intro hnil
      rw [hs.inputs_eq, hnil] at hinputs
      exact hinputs rfl
    · obtain ⟨id, hid, -⟩ := (hs.mem_present hs.inputs_eq).1 hmem
      exact hcabled id s hid
    · obtain ⟨id, hid, -⟩ := (hs.mem_present hs.outputs_eq).1 hmem
      exact hcabled id s hid
    · obtain ⟨id, hid, -⟩ := (hs.mem_present hs.steps_eq).1 hmem
      simpa [Magnet.isConnected] using hcabled id s hid m hm

/-! ## Loose cables -/

/-- A reachable diagram passes the integrity check just when it has inputs, steps and outputs and
nothing else, each input magnet is joined to another, and each output magnet has a cable, attached
or loose. If no cable is loose, every magnet is joined to another. -/
theorem checkIntegrity_eq_ok_iff_submittable (h : d.Reachable) :
    (d.checkIntegrity = .ok () ↔ d.Submittable fun t =>
      (∃ c, d.Touches c t) ∧ (t.side = .input → ∃ c, d.Joins c t)) ∧
    ((∀ c s, d.ends? c ≠ some (s, none)) →
      (d.checkIntegrity = .ok () ↔ d.Submittable fun t => ∃ c, d.Joins c t)) := by
  have hs := h.sound
  rw [checkIntegrity_eq_ok_iff, hs.complete_iff_submittable]
  refine ⟨⟨fun hd => hd.congr ?_, fun hd => hd.congr ?_⟩, fun hloose =>
    ⟨fun hd => hd.congr ?_, fun hd => hd.congr ?_⟩⟩
  · rintro t m - ⟨c, hc⟩
    exact ⟨⟨c, hc⟩, fun ht => ⟨c, hs.joins hc ht⟩⟩
  · rintro t m - ⟨hc, -⟩
    exact hc
  · rintro t m - ⟨c, hc⟩
    exact ⟨c, hc.joins hloose⟩
  · rintro t m - ⟨c, hc⟩
    exact ⟨c, hc.touches⟩

/-- An input that feeds a step that feeds an output. -/
def straightThrough : List (Change Double) :=
  [.addShape (.rawInput "r" Point.origin),
   .addShape (.step "f" [⟨"x", none⟩] [⟨"y", none⟩] Point.origin),
   .addShape (.output "o" none Point.origin),
   .connect ⟨⟨0⟩, .output, 0⟩ ⟨⟨1⟩, .input, 0⟩,
   .connect ⟨⟨1⟩, .output, 0⟩ ⟨⟨2⟩, .input, 0⟩]

theorem submittable_straightThrough :
    ((blank.after straightThrough).Reachable ∧
      (blank.after straightThrough).checkIntegrity = .ok () ∧
      ∀ c s, (blank.after straightThrough).ends? c ≠ some (s, none)) ∧
    (blank.after straightThrough).Submittable fun t =>
      ∃ c, (blank.after straightThrough).Joins c t := by
  have hreach : (blank.after straightThrough).Reachable := by
    refine ⟨_, ?_, rfl⟩
    simp [straightThrough, Change.Built, Shape.Built.rawInput, Shape.Built.step,
      Shape.Built.output]
  have hafter : blank.after straightThrough = ((blank.after (straightThrough.take 3)).join
      ⟨⟨0⟩, .output, 0⟩ ⟨⟨1⟩, .input, 0⟩).join ⟨⟨1⟩, .output, 0⟩ ⟨⟨2⟩, .input, 0⟩ := by
    rw [← run_connect_of_successors_eq_nil rfl rfl rfl rfl rfl rfl (by decide) rfl,
      ← run_connect_of_successors_eq_nil rfl rfl rfl rfl rfl rfl (by decide) rfl]
    rfl
  have hcheck : (blank.after straightThrough).checkIntegrity = .ok () := by
    rw [hafter]
    rfl
  have hloose : ∀ c s, (blank.after straightThrough).ends? c ≠ some (s, none) := by
    intro c s
    rw [hafter, ends?_join, ends?_join]
    split
    · simp
    · split
      · simp
      · exact fun h => by cases h
  exact ⟨⟨hreach, hcheck, hloose⟩,
    ((checkIntegrity_eq_ok_iff_submittable hreach).2 hloose).1 hcheck⟩

/-- A cable can be started at any output magnet. -/
theorem exists_run_startCable {m : Magnet α} (ht : t.side = .output) (hm : d.magnet? t = some m) :
    ∃ p, (d.run (.startCable t)).2 = d.start t p := by
  obtain ⟨p, hp⟩ := exists_magnetPosition? hm
  refine ⟨p, ?_⟩
  simp only [run_snd, Edit.run_startCable, ht, hp]
  rfl

/-- An input with a loose cable, beside a step that feeds an output. -/
def danglingInput : List (Change Double) :=
  [.addShape (.rawInput "r" Point.origin),
   .addShape (.step "f" [] [⟨"y", none⟩] Point.origin),
   .addShape (.output "o" none Point.origin),
   .connect ⟨⟨1⟩, .output, 0⟩ ⟨⟨2⟩, .input, 0⟩,
   .startCable ⟨⟨0⟩, .output, 0⟩]

/-- The check passes although nothing is joined to the input. -/
theorem not_submittable_danglingInput :
    (blank.after danglingInput).Reachable ∧
      ¬ ((blank.after danglingInput).checkIntegrity = .ok () ↔
        (blank.after danglingInput).Submittable fun t =>
          ∃ c, (blank.after danglingInput).Joins c t) := by
  have hreach : (blank.after danglingInput).Reachable := by
    refine ⟨_, ?_, rfl⟩
    simp [danglingInput, Change.Built, Shape.Built.rawInput, Shape.Built.step,
      Shape.Built.output]
  have hjoined : blank.after (danglingInput.take 4) =
      (blank.after (danglingInput.take 3)).join ⟨⟨1⟩, .output, 0⟩ ⟨⟨2⟩, .input, 0⟩ := by
    rw [← run_connect_of_successors_eq_nil rfl rfl rfl rfl rfl rfl (by decide) rfl]
    rfl
  obtain ⟨p, hafter⟩ : ∃ p, blank.after danglingInput =
      ((blank.after (danglingInput.take 3)).join ⟨⟨1⟩, .output, 0⟩ ⟨⟨2⟩, .input, 0⟩).start
        ⟨⟨0⟩, .output, 0⟩ p := by
    rw [← hjoined]
    exact exists_run_startCable (d := blank.after (danglingInput.take 4)) rfl
      (by rw [hjoined]; rfl)
  have hcheck : (blank.after danglingInput).checkIntegrity = .ok () := by
    rw [hafter]
    rfl
  refine ⟨hreach, fun hiff => ?_⟩
  obtain ⟨c, s, u, hc, hend⟩ := (hiff.1 hcheck).connected ⟨⟨0⟩, .output, 0⟩ _ (by rw [hafter]; rfl)
  -- The only cable with two ends runs from the step to the output.
  rw [hafter, ends?_start, ends?_join] at hc
  split at hc
  · cases hc
  · split at hc
    · cases hc
      simp at hend
    · cases hc

end Diagram

end Patchbay
