import Patchbay.Proofs.Diagram.Deleting

/-!
# What is left without a shape

`Deleting` says that to delete an item is to lose its cascade. Here the cascade of a shape is
computed from the diagram before: it is the shape, the cables that end at it (`cableEndsAt`), loose
ones included, and the outputs that have such a cable (`outputWith`). The cascade ends there,
because an output has no cable but the one that leads to it.

`d.Without id d'` spells out what that leaves: look-ups, magnets and lists, each as a filter of what
was there. `without_of_reachable` says that to delete a shape of a reachable diagram leaves exactly
this.
-/

namespace Patchbay

open Relation

variable {α : Type}

def Cable.endsAt (k : Cable α) (id : ShapeId) : Bool := k.ends.any (·.shape = id)

/-- The shape with some cables taken off its magnets. -/
def Shape.unhookAll (s : Shape α) (p : CableId → Bool) : Shape α :=
  s.mapMagnets fun m => { m with cables := m.cables.filter fun c => !p c }

theorem Shape.without_eq_unhookAll {g : Set Item} {p : CableId → Bool}
    (h : ∀ c, .cable c ∈ g ↔ p c = true) (s : Shape α) : s.without g = s.unhookAll p := by
  have hstays : ∀ c, stays g (.cable c) = !p c := fun c => by
    rw [Bool.eq_iff_iff, stays_iff, h, Bool.not_eq_true, Bool.not_eq_true']
  simp only [without, unhookAll, Magnet.without, hstays]

namespace Diagram

variable {d d' : Diagram α} {g : Set Item} {id i : ShapeId} {c : CableId}

/-! ## What goes with a shape -/

def cableEndsAt (d : Diagram α) (id : ShapeId) (c : CableId) : Bool :=
  (d.cable? c).any (·.endsAt id)

/-- An output with a cable of the given kind. -/
def outputWith (d : Diagram α) (p : CableId → Bool) (i : ShapeId) : Bool :=
  (d.shape? i).any fun s => s.isOutput && s.inputs.any (·.cables.any p)

/-- The shape itself, or an output with a cable that ends at the shape. -/
def goesWith (d : Diagram α) (id i : ShapeId) : Bool :=
  decide (i = id) || d.outputWith (d.cableEndsAt id) i

theorem cableEndsAt_iff : d.cableEndsAt id c = true ↔ ∃ u, d.Touches c u ∧ u.shape = id := by
  simp only [cableEndsAt, Option.any_eq_true_iff_get, Touches, ends?]
  cases hk : d.cable? c with
  | none => simp
  | some k =>
    cases hdest : k.dest with
    | none => simp [Cable.endsAt, Cable.ends, hdest]
    | some t =>
      simp [Cable.endsAt, Cable.ends, hdest]

variable [Scalar α]

/-- The output that a cable takes along is the one that has the cable. -/
theorem Sound.outputWith_iff (h : d.Sound []) {p : CableId → Bool} :
    d.outputWith p i = true ↔ ∃ c, p c = true ∧ d.Takes (.cable c) (.shape i) := by
  constructor
  · intro hi
    obtain ⟨s, hs, hi⟩ := (Option.any_eq_true _ _).1 hi
    obtain ⟨hout, hi⟩ := Bool.and_eq_true_iff.1 hi
    obtain ⟨m, hm, hi⟩ := List.any_eq_true.1 hi
    obtain ⟨c, hc, hp⟩ := List.any_eq_true.1 hi
    obtain ⟨j, hj⟩ := List.mem_iff_getElem?.1 hm
    have hmag : d.magnet? ⟨i, .input, j⟩ = some m := (magnet?_of_shape? hs).trans hj
    obtain ⟨source, hends⟩ := h.landed hmag rfl hc
    exact ⟨c, hp, .output hends rfl (has_iff.2 ⟨s, hs, hout⟩)⟩
  · rintro ⟨c, hp, hc⟩
    cases hc with
    | @output _ _ _ t he ht hout =>
      obtain ⟨s, hs, hso⟩ := has_iff.1 hout
      obtain ⟨m, hm, hmem⟩ := h.dest he
      rw [magnet?_of_shape? (ht ▸ hs), h.dest_side he] at hm
      rw [outputWith, hs, Option.any_some, hso, Bool.true_and, List.any_eq_true]
      exact ⟨m, List.mem_of_getElem? hm, List.any_eq_true.2 ⟨c, hmem, hp⟩⟩

/-- The cascade of a shape stops at the outputs that its cables lead to. -/
theorem Sound.mem_cascade_shape (h : d.Sound []) {y : Item} :
    y ∈ d.cascade (.shape id) ↔ y = .shape id ∨
      ∃ c, d.cableEndsAt id c = true ∧ (y = .cable c ∨ d.Takes (.cable c) y) := by
  have hcables : ∀ z, d.Takes (.shape id) z ↔ ∃ c, d.cableEndsAt id c = true ∧ z = .cable c := by
    intro z
    constructor
    · intro hz
      cases hz with
      | cable hc hu => exact ⟨_, cableEndsAt_iff.2 ⟨_, hc, hu⟩, rfl⟩
    · rintro ⟨c, hat, rfl⟩
      obtain ⟨u, hc, hu⟩ := cableEndsAt_iff.1 hat
      exact .cable hc hu
  have hcascade : ∀ c, y ∈ d.cascade (.cable c) ↔ y = .cable c ∨ d.Takes (.cable c) y :=
    fun c => Set.ext_iff.1 (h.cascade_cable c) y
  simp only [← hcascade]
  constructor
  · intro hy
    rcases ReflTransGen.cases_head hy with rfl | ⟨z, hz, hzy⟩
    · exact .inl rfl
    · obtain ⟨c, hat, rfl⟩ := (hcables z).1 hz
      exact .inr ⟨c, hat, hzy⟩
  · rintro (rfl | ⟨c, hat, hy⟩)
    · exact ReflTransGen.refl
    · exact ReflTransGen.head ((hcables _).2 ⟨c, hat, rfl⟩) hy

theorem Sound.cable_mem_cascade_shape (h : d.Sound []) :
    .cable c ∈ d.cascade (.shape id) ↔ d.cableEndsAt id c = true := by
  rw [h.mem_cascade_shape]
  constructor
  · rintro (hc | ⟨c', hat, hc | hc⟩)
    · cases hc
    · cases hc
      exact hat
    · obtain ⟨_, hshape⟩ := hc.exists_shape
      cases hshape
  · exact fun hat => .inr ⟨c, hat, .inl rfl⟩

theorem Sound.shape_mem_cascade_shape (h : d.Sound []) :
    .shape i ∈ d.cascade (.shape id) ↔ d.goesWith id i = true := by
  rw [h.mem_cascade_shape, goesWith, Bool.or_eq_true, h.outputWith_iff, decide_eq_true_iff]
  refine or_congr (by simp) (exists_congr fun c => and_congr_right fun _ => ?_)
  simp

/-! ## What is left -/

/-- `d'` is what is left of `d` without a shape. The cables that end at the shape are gone, and with
them the outputs that they lead to. The other shapes lose these cables from their magnets, and all
else is as it was, in the same order. -/
structure Without (d : Diagram α) (id : ShapeId) (d' : Diagram α) : Prop where
  cable : ∀ c, d'.cable? c = (d.cable? c).filter fun k => !k.endsAt id
  shape : ∀ i, d'.shape? i =
    if d.goesWith id i then none else (d.shape? i).map (·.unhookAll (d.cableEndsAt id))
  order : d'.order = d.order.filter fun i => !d.goesWith id i
  inputs : d'.inputs = d.inputs.filter fun i => !d.goesWith id i
  steps : d'.steps = d.steps.filter fun i => !d.goesWith id i
  outputs : d'.outputs = d.outputs.filter fun i => !d.goesWith id i
  cableOrder : d'.cableOrder = d.cableOrder.filter fun c => !d.cableEndsAt id c

omit [Scalar α] in
/-- The shapes of a kind are those that were of that kind, but for those that went. -/
theorem Loses.filter_order (h : d.Loses g d') {p : Shape α → Bool} (hp : Bodily p) :
    d'.order.filter (d'.has p) =
      (d.order.filter (d.has p)).filter fun i => stays g (.shape i) := by
  rw [h.order, List.filter_filter, List.filter_filter]
  refine List.filter_congr fun i _ => ?_
  rw [Bool.eq_iff_iff, Bool.and_eq_true_iff, Bool.and_eq_true_iff, h.has_iff hp, stays_iff]
  tauto

theorem Sound.without_of_loses (h : d.Sound []) (h' : d'.Sound [])
    (hloses : d.Loses (d.cascade (.shape id)) d') : d.Without id d' := by
  have hcable : ∀ c, stays (d.cascade (.shape id)) (.cable c) = !d.cableEndsAt id c := fun c => by
    rw [Bool.eq_iff_iff, stays_iff, h.cable_mem_cascade_shape, Bool.not_eq_true,
      Bool.not_eq_true']
  have hshape : ∀ i, stays (d.cascade (.shape id)) (.shape i) = !d.goesWith id i := fun i => by
    rw [Bool.eq_iff_iff, stays_iff, h.shape_mem_cascade_shape, Bool.not_eq_true,
      Bool.not_eq_true']
  refine ⟨fun c => ?_, fun i => ?_, ?_, ?_, ?_, ?_, ?_⟩
  · rw [hloses.cable, hcable, cableEndsAt]
    cases d.cable? c <;> simp [Option.filter]
  · rw [hloses.shape, hshape]
    simp only [Shape.without_eq_unhookAll fun c => h.cable_mem_cascade_shape]
    cases d.goesWith id i <;> simp
  · simp only [hloses.order, hshape]
  · rw [h'.inputs_eq, h.inputs_eq, hloses.filter_order bodily_isInput]
    simp only [hshape]
  · rw [h'.steps_eq, h.steps_eq, hloses.filter_order bodily_isStep]
    simp only [hshape]
  · rw [h'.outputs_eq, h.outputs_eq, hloses.filter_order bodily_isOutput]
    simp only [hshape]
  · simp only [hloses.cableOrder, hcable]

omit [Scalar α] in
theorem goesWith_eq_false {s : Shape α} (hs : d.shape? i = some s) (hi : i ≠ id)
    (hapart : ∀ c ∈ s.cables, d.cableEndsAt id c = false) : d.goesWith id i = false := by
  rw [goesWith, decide_eq_false hi, Bool.false_or, outputWith, hs, Option.any_some,
    Bool.and_eq_false_iff, List.any_eq_false]
  refine .inr fun m hm hany => ?_
  obtain ⟨c, hc, hat⟩ := List.any_eq_true.1 hany
  rw [hapart c (List.mem_flatMap.2 ⟨m, List.mem_append_left _ hm, hc⟩)] at hat
  exact Bool.false_ne_true hat

/-- To delete a shape of a reachable diagram succeeds, and leaves what there is without the shape,
its cables, and the outputs that these lead to. Every other shape that has no cable from or to the
shape is as it was, an output without a cable among them. -/
theorem without_of_reachable (h : d.Reachable) (hid : (d.shape? id).isSome) :
    ∃ d', (Edit.deleteShape id).run d = (.ok (), d') ∧ d.Without id d' ∧
      ∀ i s, d.shape? i = some s → i ≠ id → (∀ c ∈ s.cables, d.cableEndsAt id c = false) →
        d'.shape? i = some s := by
  obtain ⟨d', hrun, hd', hloses⟩ := h.sound.run_delete (x := .shape id) hid
  refine ⟨d', hrun, h.sound.without_of_loses hd' hloses, fun i s hs hi hapart => ?_⟩
  refine hloses.shape?_of_apart hs ?_ fun c hc => ?_
  · rw [h.sound.shape_mem_cascade_shape, goesWith_eq_false hs hi hapart]
    exact Bool.false_ne_true
  · rw [h.sound.cable_mem_cascade_shape, hapart c hc]
    exact Bool.false_ne_true

/-- A step with a loose cable and a cable to an output, between an input and an output that have
none. -/
def stepAmongOthers : List (Change Double) :=
  [.addShape (.rawInput "a" Point.origin),
   .addShape (.step "f" [⟨"x", none⟩] [⟨"y", none⟩] Point.origin),
   .addShape (.output "o" none Point.origin),
   .addShape (.output "spare" none Point.origin),
   .startCable ⟨⟨1⟩, .output, 0⟩,
   .connect ⟨⟨1⟩, .output, 0⟩ ⟨⟨2⟩, .input, 0⟩]

/-- Without the step, the input and the spare output are left. -/
theorem without_stepAmongOthers :
    ((blank.after stepAmongOthers).Reachable ∧
      ((blank.after stepAmongOthers).shape? ⟨1⟩).isSome ∧
      (blank.after stepAmongOthers).cableOrder = [⟨0⟩, ⟨1⟩]) ∧
    ∃ d', (Edit.deleteShape ⟨1⟩).run (blank.after stepAmongOthers) = (.ok (), d') ∧
      (blank.after stepAmongOthers).Without ⟨1⟩ d' ∧
      d'.order = [⟨0⟩, ⟨3⟩] ∧ d'.outputs = [⟨3⟩] ∧ d'.cableOrder = [] ∧
      d'.shape? ⟨3⟩ = some (.output "spare" none Point.origin) := by
  have hreach : (blank.after stepAmongOthers).Reachable := by
    refine ⟨_, ?_, rfl⟩
    simp [stepAmongOthers, Change.Built, Shape.Built.rawInput, Shape.Built.step,
      Shape.Built.output]
  have hafter : blank.after stepAmongOthers = (blank.after (stepAmongOthers.take 5)).join
      ⟨⟨1⟩, .output, 0⟩ ⟨⟨2⟩, .input, 0⟩ := by
    rw [← run_connect_of_successors_eq_nil rfl rfl rfl rfl rfl rfl (by decide) rfl]
    rfl
  have hlive : ((blank.after stepAmongOthers).shape? ⟨1⟩).isSome := by
    rw [hafter]
    rfl
  refine ⟨⟨hreach, hlive, by rw [hafter]; rfl⟩, ?_⟩
  obtain ⟨d', hrun, hwithout, hrest⟩ := without_of_reachable hreach hlive
  have hspare : (blank.after stepAmongOthers).shape? ⟨3⟩ =
      some (.output "spare" none Point.origin) := by
    rw [hafter]
    rfl
  have hbare : (Shape.output "spare" none Point.origin : Shape Double).cables = [] := rfl
  refine ⟨d', hrun, hwithout, ?_, ?_, ?_, hrest ⟨3⟩ _ hspare (by decide) (by simp [hbare])⟩
  · rw [hwithout.order, hafter]
    rfl
  · rw [hwithout.outputs, hafter]
    rfl
  · rw [hwithout.cableOrder, hafter]
    rfl

end Diagram

end Patchbay
