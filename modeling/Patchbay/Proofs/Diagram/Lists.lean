import Patchbay.Proofs.Diagram.Views

/-!
# The lists of a diagram

The lists of a diagram repeat what is in its slots. `ShapesListed` and `CablesListed` say that they
name exactly the shapes and cables that are there, but for shapes that are kept apart while a step
is being replaced. Each elementary change keeps these.
-/

namespace Patchbay

namespace Diagram

variable {α : Type} {d d' : Diagram α} {apart : List ShapeId}

/-! ## What the lists must satisfy -/

/-- The list of shapes names exactly the shapes that are there, but for those kept apart, and the
lists of inputs, steps and outputs follow it. -/
structure ShapesListed (d : Diagram α) (apart : List ShapeId) : Prop where
  order_nodup : d.order.Nodup
  mem_order : ∀ i, i ∈ d.order ↔ (d.body? i).isSome ∧ i ∉ apart
  inputs_eq : d.inputs = d.order.filter (d.has Shape.isInput)
  steps_eq : d.steps = d.order.filter (d.has Shape.isStep)
  outputs_eq : d.outputs = d.order.filter (d.has Shape.isOutput)

/-- The list of cables names exactly the cables that are there. -/
structure CablesListed (d : Diagram α) : Prop where
  cableOrder_nodup : d.cableOrder.Nodup
  mem_cableOrder : ∀ c, c ∈ d.cableOrder ↔ (d.ends? c).isSome

/-! ## Lists of shapes -/

theorem mem_shapes_iff {x : ShapeId × Shape α} :
    x ∈ d.shapes ↔ x.1 ∈ d.order ∧ d.shape? x.1 = some x.2 := by
  obtain ⟨id, s⟩ := x
  simp [shapes]

/-- Each shape that is there is listed with its name. -/
theorem ShapesListed.mem_shapes_iff (h : d.ShapesListed []) {x : ShapeId × Shape α} :
    x ∈ d.shapes ↔ d.shape? x.1 = some x.2 := by
  rw [Diagram.mem_shapes_iff, h.mem_order]
  refine ⟨And.right, fun hx => ⟨⟨?_, List.not_mem_nil⟩, hx⟩⟩
  rw [body?_eq_some hx, Option.isSome_some]

theorem ShapesListed.mem_filter_has (h : d.ShapesListed []) {p : Shape α → Bool} {id : ShapeId} :
    id ∈ d.order.filter (d.has p) ↔ d.has p id = true := by
  rw [List.mem_filter, h.mem_order]
  refine ⟨fun hid => hid.2, fun hid => ⟨⟨?_, by simp⟩, hid⟩⟩
  cases hs : d.shape? id with
  | none => simp [has, hs] at hid
  | some s => simp [body?, hs]

theorem ShapesListed.mem_steps (h : d.ShapesListed []) {id : ShapeId} :
    id ∈ d.steps ↔ d.has Shape.isStep id = true := by
  rw [h.steps_eq, h.mem_filter_has]

theorem ShapesListed.mem_outputs (h : d.ShapesListed []) {id : ShapeId} :
    id ∈ d.outputs ↔ d.has Shape.isOutput id = true := by
  rw [h.outputs_eq, h.mem_filter_has]

theorem ShapesListed.steps_nodup (h : d.ShapesListed apart) : d.steps.Nodup := by
  rw [h.steps_eq]
  exact h.order_nodup.filter _

theorem ShapesListed.congr (h : d.ShapesListed apart) (hb : ∀ i, d'.body? i = d.body? i)
    (ho : d'.order = d.order) (hi : d'.inputs = d.inputs) (hs : d'.steps = d.steps)
    (hout : d'.outputs = d.outputs) : d'.ShapesListed apart where
  order_nodup := ho ▸ h.order_nodup
  mem_order i := by rw [ho, hb, h.mem_order]
  inputs_eq := by
    rw [hi, ho, h.inputs_eq]
    exact List.filter_congr fun i _ => (has_congr bodily_isInput (hb i)).symm
  steps_eq := by
    rw [hs, ho, h.steps_eq]
    exact List.filter_congr fun i _ => (has_congr bodily_isStep (hb i)).symm
  outputs_eq := by
    rw [hout, ho, h.outputs_eq]
    exact List.filter_congr fun i _ => (has_congr bodily_isOutput (hb i)).symm

theorem Alike.shapesListed (ha : Alike d d') (h : d.ShapesListed apart) :
    d'.ShapesListed apart := by
  refine h.congr ha.body ?_ ?_ ?_ ?_ <;> rw [ha.lists]

theorem ShapesListed.nextShape_notMem (h : d.ShapesListed apart) : d.nextShape ∉ d.order := by
  rw [h.mem_order, body?_eq_none_iff.2 (shape?_nextShape d)]
  simp

theorem filter_has_placeShape {p : Shape α → Bool} (hp : Bodily p) {l : List ShapeId}
    (hl : d.nextShape ∉ l) (s : Shape α) :
    l.filter ((d.placeShape s).has p) = l.filter (d.has p) := by
  refine List.filter_congr fun i hi => has_congr hp ?_
  rw [body?_placeShape, if_neg]
  rintro rfl
  exact hl hi

/-- A shape that has been placed is apart until it is put into the lists. -/
theorem ShapesListed.placeShape (h : d.ShapesListed apart) (s : Shape α) :
    (d.placeShape s).ShapesListed (d.nextShape :: apart) where
  order_nodup := h.order_nodup
  mem_order i := by
    change i ∈ d.order ↔ _
    rw [h.mem_order, body?_placeShape]
    by_cases hi : i = d.nextShape
    · subst hi
      simp [body?_eq_none_iff.2 (shape?_nextShape d)]
    · simp [hi]
  inputs_eq := h.inputs_eq.trans
    (filter_has_placeShape bodily_isInput h.nextShape_notMem s).symm
  steps_eq := h.steps_eq.trans (filter_has_placeShape bodily_isStep h.nextShape_notMem s).symm
  outputs_eq := h.outputs_eq.trans
    (filter_has_placeShape bodily_isOutput h.nextShape_notMem s).symm

theorem shapeSlots_addShape (d : Diagram α) (s : Shape α) :
    (d.addShape s).shapeSlots = (d.placeShape s).shapeSlots := by
  simp [addShape]

theorem shape?_addShape (d : Diagram α) (s : Shape α) :
    (d.addShape s).shape? d.nextShape = some (s.mapMagnets Magnet.clear) := by
  change (d.addShape s).shapeSlots.get? _ = _
  rw [shapeSlots_addShape]
  exact (shape?_placeShape d s d.nextShape).trans (if_pos rfl)

theorem body?_addShape (d : Diagram α) (s : Shape α) (i : ShapeId) :
    (d.addShape s).body? i = (d.placeShape s).body? i := by
  simp [body?, shape?, shapeSlots_addShape]

theorem magnet?_addShape (d : Diagram α) (s : Shape α) (u : Terminal) :
    (d.addShape s).magnet? u = (d.placeShape s).magnet? u := by
  simp [magnet?_eq, shape?, shapeSlots_addShape]

theorem ends?_addShape (d : Diagram α) (s : Shape α) (c : CableId) :
    (d.addShape s).ends? c = d.ends? c := by
  simp [ends?, cable?, addShape, placeShape]

theorem cableOrder_addShape (d : Diagram α) (s : Shape α) :
    (d.addShape s).cableOrder = d.cableOrder := by
  simp [addShape, placeShape]

theorem order_addShape (d : Diagram α) (s : Shape α) :
    (d.addShape s).order = d.order ++ [d.nextShape] := by
  simp [addShape, placeShape]

theorem inputs_addShape (d : Diagram α) (s : Shape α) :
    (d.addShape s).inputs = d.inputs ++ [d.nextShape].filter fun _ => s.isInput := by
  cases hk : s.kind <;> simp [addShape, placeShape, modifyKindList, Shape.isInput, hk]

theorem steps_addShape (d : Diagram α) (s : Shape α) :
    (d.addShape s).steps = d.steps ++ [d.nextShape].filter fun _ => s.isStep := by
  cases hk : s.kind <;> simp [addShape, placeShape, modifyKindList, Shape.isStep, hk]

theorem outputs_addShape (d : Diagram α) (s : Shape α) :
    (d.addShape s).outputs = d.outputs ++ [d.nextShape].filter fun _ => s.isOutput := by
  cases hk : s.kind <;> simp [addShape, placeShape, modifyKindList, Shape.isOutput, hk]

theorem ShapesListed.filter_addShape (h : d.ShapesListed apart) {p : Shape α → Bool}
    (hp : Bodily p) (s : Shape α) :
    (d.order ++ [d.nextShape]).filter ((d.addShape s).has p) =
      d.order.filter (d.has p) ++ [d.nextShape].filter fun _ => p s := by
  have hsame : (d.addShape s).has p = (d.placeShape s).has p :=
    funext fun i => has_congr hp (body?_addShape d s i)
  have hnew : (d.placeShape s).has p d.nextShape = p s :=
    has_of_body? hp (by rw [body?_placeShape, if_pos rfl])
  rw [hsame, List.filter_append, filter_has_placeShape hp h.nextShape_notMem]
  simp [List.filter_cons, hnew]

theorem ShapesListed.addShape (h : d.ShapesListed []) (s : Shape α) :
    (d.addShape s).ShapesListed [] where
  order_nodup := by
    rw [order_addShape]
    refine List.nodup_append.2 ⟨h.order_nodup, by simp, fun i hi j hj hij => ?_⟩
    rw [hij, List.mem_singleton.1 hj] at hi
    exact h.nextShape_notMem hi
  mem_order i := by
    rw [order_addShape, body?_addShape, body?_placeShape, List.mem_append, h.mem_order]
    by_cases hi : i = d.nextShape <;> simp [hi]
  inputs_eq := by
    rw [inputs_addShape, order_addShape, h.filter_addShape bodily_isInput, ← h.inputs_eq]
  steps_eq := by
    rw [steps_addShape, order_addShape, h.filter_addShape bodily_isStep, ← h.steps_eq]
  outputs_eq := by
    rw [outputs_addShape, order_addShape, h.filter_addShape bodily_isOutput, ← h.outputs_eq]

/-! ## Removing a shape -/

theorem removeShape_of_live {id : ShapeId} {s : Shape α} (h : d.shape? id = some s) :
    d.removeShape id =
      { d with
        shapeSlots := d.shapeSlots.remove id.slot
        order := d.order.filter (· ≠ id) }.modifyKindList s.kind (·.filter (· ≠ id)) := by
  simp only [removeShape, h]

theorem removeShape_of_gone {id : ShapeId} (h : d.shape? id = none) : d.removeShape id = d := by
  simp only [removeShape, h]

theorem order_removeShape (h : d.ShapesListed apart) (id : ShapeId) :
    (d.removeShape id).order = d.order.filter (· ≠ id) := by
  cases hs : d.shape? id with
  | none =>
    rw [removeShape_of_gone hs, List.filter_eq_self.2]
    intro i hi
    refine decide_eq_true ?_
    rintro rfl
    have := ((h.mem_order _).1 hi).1
    rw [body?_eq_none_iff.2 hs] at this
    cases this
  | some s => simp [removeShape_of_live hs]

/-- To filter a list of shapes of a kind is to remove the shape, if it is of that kind. -/
theorem filter_has_removeShape {p : Shape α → Bool} (hp : Bodily p) (l : List ShapeId)
    (id : ShapeId) :
    (l.filter (· ≠ id)).filter ((d.removeShape id).has p) =
      (l.filter (d.has p)).filter (· ≠ id) := by
  rw [List.filter_filter, List.filter_filter]
  refine List.filter_congr fun i _ => ?_
  by_cases hi : id = i
  · simp [hi]
  · rw [has_congr hp (d := d) (j := i) (by rw [body?_removeShape, if_neg hi]), Bool.and_comm]

/-- A shape that does not belong to a list of shapes of a kind is not in it. -/
theorem filter_ne_of_has_eq_false {p : Shape α → Bool} {l : List ShapeId} {id : ShapeId}
    (h : d.has p id = false) : (l.filter (d.has p)).filter (· ≠ id) = l.filter (d.has p) := by
  refine List.filter_eq_self.2 fun i hi => decide_eq_true ?_
  rintro rfl
  rw [(List.mem_filter.1 hi).2] at h
  cases h

/-- Removing a shape filters each of the three lists, although only one of them is touched. -/
theorem ShapesListed.filter_removeShape {p : Shape α → Bool} (hp : Bodily p) {l : List ShapeId}
    (hl : l = d.order.filter (d.has p)) (id : ShapeId) :
    (match d.shape? id with
      | none => l
      | some s => if p s then l.filter (· ≠ id) else l) =
      (d.order.filter (· ≠ id)).filter ((d.removeShape id).has p) := by
  rw [filter_has_removeShape hp, hl]
  cases hs : d.shape? id with
  | none => exact (filter_ne_of_has_eq_false (by simp [has, hs])).symm
  | some s =>
    by_cases hps : p s
    · simp [hps]
    · simp only [hps]
      exact (filter_ne_of_has_eq_false (by simp [has, hs, hps])).symm

theorem inputs_removeShape (d : Diagram α) (id : ShapeId) : (d.removeShape id).inputs =
    match d.shape? id with
      | none => d.inputs
      | some s => if s.isInput then d.inputs.filter (· ≠ id) else d.inputs := by
  cases hs : d.shape? id with
  | none => rw [removeShape_of_gone hs]
  | some s =>
    rw [removeShape_of_live hs]
    cases hk : s.kind <;> simp [modifyKindList, Shape.isInput, hk]

theorem steps_removeShape (d : Diagram α) (id : ShapeId) : (d.removeShape id).steps =
    match d.shape? id with
      | none => d.steps
      | some s => if s.isStep then d.steps.filter (· ≠ id) else d.steps := by
  cases hs : d.shape? id with
  | none => rw [removeShape_of_gone hs]
  | some s =>
    rw [removeShape_of_live hs]
    cases hk : s.kind <;> simp [modifyKindList, Shape.isStep, hk]

theorem outputs_removeShape (d : Diagram α) (id : ShapeId) : (d.removeShape id).outputs =
    match d.shape? id with
      | none => d.outputs
      | some s => if s.isOutput then d.outputs.filter (· ≠ id) else d.outputs := by
  cases hs : d.shape? id with
  | none => rw [removeShape_of_gone hs]
  | some s =>
    rw [removeShape_of_live hs]
    cases hk : s.kind <;> simp [modifyKindList, Shape.isOutput, hk]

theorem ShapesListed.removeShape (h : d.ShapesListed apart) (id : ShapeId) :
    (d.removeShape id).ShapesListed apart where
  order_nodup := by
    rw [order_removeShape h]
    exact h.order_nodup.filter _
  mem_order i := by
    rw [order_removeShape h, List.mem_filter, h.mem_order, body?_removeShape]
    by_cases hi : i = id
    · simp [hi]
    · simp [hi, Ne.symm hi]
  inputs_eq := by
    rw [inputs_removeShape, order_removeShape h]
    exact ShapesListed.filter_removeShape bodily_isInput h.inputs_eq id
  steps_eq := by
    rw [steps_removeShape, order_removeShape h]
    exact ShapesListed.filter_removeShape bodily_isStep h.steps_eq id
  outputs_eq := by
    rw [outputs_removeShape, order_removeShape h]
    exact ShapesListed.filter_removeShape bodily_isOutput h.outputs_eq id

/-! ## Lists of cables -/

theorem CablesListed.congr (h : d.CablesListed) (he : ∀ c, (d'.ends? c).isSome = (d.ends? c).isSome)
    (ho : d'.cableOrder = d.cableOrder) : d'.CablesListed where
  cableOrder_nodup := ho ▸ h.cableOrder_nodup
  mem_cableOrder c := by rw [ho, he, h.mem_cableOrder]

theorem CablesListed.unplug (h : d.CablesListed) (id : CableId) (k : Cable α) :
    (d.unplug id k).CablesListed := by
  have ho : (d.unplug id k).cableOrder = d.cableOrder.filter (· ≠ id) := by
    rw [unplug_eq, unhookFrom_frame]
    rfl
  refine ⟨ho ▸ h.cableOrder_nodup.filter _, fun c => ?_⟩
  rw [ho, List.mem_filter, h.mem_cableOrder, ends?_unplug]
  by_cases hc : c = id
  · simp [hc]
  · simp [hc, Ne.symm hc]

theorem CablesListed.start (h : d.CablesListed) (s : Terminal) (p : Point α) :
    (d.start s p).CablesListed where
  cableOrder_nodup := by
    change (d.cableOrder ++ [d.nextCable]).Nodup
    refine List.nodup_append.2 ⟨h.cableOrder_nodup, by simp, fun c hc x hx hcx => ?_⟩
    rw [hcx, List.mem_singleton.1 hx, h.mem_cableOrder, ends?_nextCable] at hc
    cases hc
  mem_cableOrder c := by
    change c ∈ d.cableOrder ++ [d.nextCable] ↔ _
    rw [List.mem_append, h.mem_cableOrder, ends?_start]
    by_cases hc : c = d.nextCable <;> simp [hc]

theorem CablesListed.land [Scalar α] (h : d.CablesListed) (id : CableId) (t : Terminal) :
    (d.land id t).CablesListed := by
  refine h.congr (fun c => ?_) rfl
  rw [ends?_land]
  split
  · rw [Option.isSome_map]
  · rfl

theorem ShapesListed.unplug (h : d.ShapesListed apart) (id : CableId) (k : Cable α) :
    (d.unplug id k).ShapesListed apart := by
  refine h.congr (body?_unplug d id k) ?_ ?_ ?_ ?_ <;> rw [unplug_eq, unhookFrom_frame] <;> rfl

theorem ShapesListed.start (h : d.ShapesListed apart) (s : Terminal) (p : Point α) :
    (d.start s p).ShapesListed apart :=
  h.congr (body?_start d s p) rfl rfl rfl rfl

theorem ShapesListed.land [Scalar α] (h : d.ShapesListed apart) (id : CableId) (t : Terminal) :
    (d.land id t).ShapesListed apart :=
  h.congr (body?_land d id t) rfl rfl rfl rfl

end Diagram

end Patchbay
