import Patchbay.Diagram.Change

/-!
# What can be seen of a diagram

A diagram is spoken of through three views: what a shape is apart from its place and its cables, the
magnet at a place, and the ends of a cable. For each elementary change there is one equation a
view, so that no later proof looks into the slots.

Some changes leave all views alone, because they only move things or redraw cables. Two diagrams
with the same views, lists and slots are `Alike`.
-/

namespace Patchbay

theorem ShapeId.slot_inj {i j : ShapeId} : i.slot = j.slot ↔ i = j := by
  cases i; cases j; simp

theorem CableId.slot_inj {i j : CableId} : i.slot = j.slot ↔ i = j := by
  cases i; cases j; simp

theorem Arena.ext_get? {β : Type} {a b : Arena β} (hsize : a.size = b.size)
    (hget : ∀ i, a.get? i = b.get? i) : a = b := by
  obtain ⟨as⟩ := a
  obtain ⟨bs⟩ := b
  refine congrArg Arena.mk (List.ext_getElem? fun i => ?_)
  have hi := hget i
  simp only [Arena.get?, Arena.size] at hi hsize
  rcases Nat.lt_or_ge i as.length with hlt | hge
  · rw [List.getElem?_eq_getElem hlt, List.getElem?_eq_getElem (hsize ▸ hlt)] at hi ⊢
    exact congrArg some hi
  · rw [List.getElem?_eq_none hge, List.getElem?_eq_none (hsize ▸ hge)]

theorem Arena.modify_push_size {β : Type} (a : Arena β) (b : β) (f : β → β) :
    (a.push b).modify a.size f = a.push (f b) := by
  simp [push, modify, size, List.modify_eq_take_cons_drop]

/-! ## Magnets of a shape -/

namespace Shape

variable {α : Type}

theorem getElem?_magnets_modifyMagnet (s : Shape α) (side side' : Side) (i j : Nat)
    (f : Magnet α → Magnet α) :
    ((s.modifyMagnet side i f).magnets side')[j]? =
      if side = side' ∧ i = j then ((s.magnets side')[j]?).map f else (s.magnets side')[j]? := by
  cases side <;> cases side' <;> by_cases h : i = j <;>
    simp [modifyMagnet, magnets, h]

theorem magnets_mapMagnets (s : Shape α) (side : Side) (f : Magnet α → Magnet α) :
    (s.mapMagnets f).magnets side = (s.magnets side).map f := by
  cases side <;> rfl

/-- What a shape is, apart from its place and its cables. -/
structure Body (α : Type) where
  kind : Kind α
  label : String
  inputs : List (Magnet α)
  outputs : List (Magnet α)

/-- The shape without its place and its cables. -/
def body (s : Shape α) : Body α :=
  ⟨s.kind, s.label, s.inputs.map Magnet.clear, s.outputs.map Magnet.clear⟩

theorem map_modify_of_eq {β γ : Type} {f : β → β} {g : β → γ} (h : ∀ b, g (f b) = g b)
    (l : List β) (i : Nat) : (l.modify i f).map g = l.map g := by
  refine List.ext_getElem? fun j => ?_
  rw [List.getElem?_map, List.getElem?_map, List.getElem?_modify]
  cases l[j]? with
  | none => rfl
  | some b => by_cases hij : i = j <;> simp [hij, h]

theorem body_modifyMagnet (s : Shape α) (side : Side) (i : Nat) {f : Magnet α → Magnet α}
    (hf : ∀ m, (f m).clear = m.clear) : (s.modifyMagnet side i f).body = s.body := by
  cases side <;> simp [modifyMagnet, body, map_modify_of_eq hf]

theorem body_mapMagnets_clear (s : Shape α) : (s.mapMagnets Magnet.clear).body = s.body := by
  simp [mapMagnets, body, Function.comp_def, Magnet.clear]

theorem cables_mapMagnets_clear (s : Shape α) : (s.mapMagnets Magnet.clear).cables = [] := by
  simp [cables, allMagnets, mapMagnets, Magnet.clear]

/-! ## Kinds exclude each other -/

theorem isOutput_iff {s : Shape α} : s.isOutput = true ↔ ∃ t, s.kind = .output t := by
  cases hk : s.kind <;> simp [isOutput, hk]

theorem isStep_eq_false_of_isInput {s : Shape α} (h : s.isInput) : s.isStep = false := by
  cases hk : s.kind <;> simp [isInput, isStep, hk] at h ⊢

theorem isOutput_eq_false_of_isInput {s : Shape α} (h : s.isInput) : s.isOutput = false := by
  cases hk : s.kind <;> simp [isInput, isOutput, hk] at h ⊢

theorem isInput_eq_false_of_isStep {s : Shape α} (h : s.isStep) : s.isInput = false := by
  cases hk : s.kind <;> simp [isStep, isInput, hk] at h ⊢

theorem isOutput_eq_false_of_isStep {s : Shape α} (h : s.isStep) : s.isOutput = false := by
  cases hk : s.kind <;> simp [isStep, isOutput, hk] at h ⊢

theorem isInput_eq_false_of_isOutput {s : Shape α} (h : s.isOutput) : s.isInput = false := by
  cases hk : s.kind <;> simp [isOutput, isInput, hk] at h ⊢

theorem isStep_eq_false_of_isOutput {s : Shape α} (h : s.isOutput) : s.isStep = false := by
  cases hk : s.kind <;> simp [isOutput, isStep, hk] at h ⊢

end Shape

namespace Diagram

variable {α : Type} {d d' : Diagram α}

/-! ## The views -/

/-- What a shape is apart from its place and its cables, if it is there. -/
def body? (d : Diagram α) (id : ShapeId) : Option (Shape.Body α) := (d.shape? id).map Shape.body

/-- Where a cable comes from and where it goes, if it is there. -/
def ends? (d : Diagram α) (id : CableId) : Option (Terminal × Option Terminal) :=
  (d.cable? id).map fun c => (c.source, c.dest)

/-- The shape is there and is of the kind that is asked for. -/
def has (d : Diagram α) (p : Shape α → Bool) (id : ShapeId) : Bool := (d.shape? id).any p

theorem body?_eq_some {id : ShapeId} {s : Shape α} (h : d.shape? id = some s) :
    d.body? id = some s.body := by
  simp [body?, h]

theorem body?_eq_none_iff {id : ShapeId} : d.body? id = none ↔ d.shape? id = none := by
  simp [body?]

theorem isSome_body? (d : Diagram α) (id : ShapeId) :
    (d.body? id).isSome = (d.shape? id).isSome := by
  simp [body?]

theorem ends?_eq_some {id : CableId} {c : Cable α} (h : d.cable? id = some c) :
    d.ends? id = some (c.source, c.dest) := by
  simp [ends?, h]

theorem exists_cable_of_ends? {id : CableId} {s : Terminal} {o : Option Terminal}
    (h : d.ends? id = some (s, o)) :
    ∃ c, d.cable? id = some c ∧ c.source = s ∧ c.dest = o := by
  simpa [ends?] using h

theorem isSome_ends? (d : Diagram α) (id : CableId) :
    (d.ends? id).isSome = (d.cable? id).isSome := by
  simp [ends?]

theorem magnet?_eq (d : Diagram α) (t : Terminal) :
    d.magnet? t = (d.shape? t.shape).bind fun s => (s.magnets t.side)[t.index]? := rfl

theorem magnet?_of_shape? {t : Terminal} {s : Shape α} (h : d.shape? t.shape = some s) :
    d.magnet? t = (s.magnets t.side)[t.index]? := by
  simp [magnet?_eq, h]

theorem magnet?_eq_none_of_body? {t : Terminal} (h : d.body? t.shape = none) :
    d.magnet? t = none := by
  simp [magnet?_eq, body?_eq_none_iff.1 h]

theorem isSome_body?_of_magnet? {t : Terminal} {m : Magnet α} (h : d.magnet? t = some m) :
    (d.body? t.shape).isSome := by
  cases hk : d.body? t.shape with
  | none => rw [magnet?_eq_none_of_body? hk] at h; cases h
  | some k => rfl

theorem has_of_shape? {id : ShapeId} {s : Shape α} (h : d.shape? id = some s)
    (p : Shape α → Bool) : d.has p id = p s := by
  simp [has, h]

theorem has_iff {p : Shape α → Bool} {id : ShapeId} :
    d.has p id = true ↔ ∃ s, d.shape? id = some s ∧ p s = true :=
  Option.any_eq_true p _

/-- The magnets of a shape are those of its body, but for their cables. -/
theorem exists_magnet_of_body? {i : ShapeId} {s : Shape α} (h : d.body? i = some s.body)
    {side : Side} {j : Nat} {m : Magnet α} (hm : (s.magnets side)[j]? = some m) :
    ∃ m', d.magnet? ⟨i, side, j⟩ = some m' ∧ m'.clear = m.clear := by
  obtain ⟨s', hs', hbody⟩ := Option.map_eq_some_iff.1 h
  have hmags : (s'.magnets side).map Magnet.clear = (s.magnets side).map Magnet.clear := by
    cases side
    · exact congrArg Shape.Body.inputs hbody
    · exact congrArg Shape.Body.outputs hbody
  have hj : ((s'.magnets side).map Magnet.clear)[j]? = some m.clear := by
    rw [hmags, List.getElem?_map, hm, Option.map_some]
  rw [List.getElem?_map] at hj
  obtain ⟨m', hm', hclear⟩ := Option.map_eq_some_iff.1 hj
  exact ⟨m', by rw [magnet?_of_shape? hs']; exact hm', hclear⟩

/-- Shapes that are the same apart from their places and cables have the same magnets apart from
their cables. -/
theorem exists_magnet_congr {i j : ShapeId} (h : d'.body? i = d.body? j) {side : Side} {k : Nat}
    {m : Magnet α} (hm : d.magnet? ⟨j, side, k⟩ = some m) :
    ∃ m', d'.magnet? ⟨i, side, k⟩ = some m' ∧ m'.clear = m.clear := by
  obtain ⟨s, hs, hk⟩ := Option.bind_eq_some_iff.1 hm
  exact exists_magnet_of_body? (h.trans (congrArg (Option.map Shape.body) hs)) hk

/-- A property of shapes that asks neither for the place nor for the cables. -/
def Bodily (p : Shape α → Bool) : Prop := ∀ s t : Shape α, s.body = t.body → p s = p t

theorem Shape.kind_eq_of_body_eq {s t : Shape α} (h : s.body = t.body) : s.kind = t.kind :=
  congrArg Shape.Body.kind h

theorem bodily_isInput : Bodily (Shape.isInput (α := α)) := fun s t h => by
  simp [Shape.isInput, Shape.kind_eq_of_body_eq h]

theorem bodily_isStep : Bodily (Shape.isStep (α := α)) := fun s t h => by
  simp [Shape.isStep, Shape.kind_eq_of_body_eq h]

theorem bodily_isOutput : Bodily (Shape.isOutput (α := α)) := fun s t h => by
  simp [Shape.isOutput, Shape.kind_eq_of_body_eq h]

theorem has_congr {p : Shape α → Bool} (hp : Bodily p) {i j : ShapeId}
    (h : d'.body? i = d.body? j) : d'.has p i = d.has p j := by
  unfold has
  unfold body? at h
  cases hi : d'.shape? i <;> cases hj : d.shape? j <;> simp [hi, hj] at h ⊢
  exact hp _ _ h

theorem has_of_body? {p : Shape α → Bool} (hp : Bodily p) {id : ShapeId} {s : Shape α}
    (h : d.body? id = some s.body) : d.has p id = p s := by
  obtain ⟨t, ht, hk⟩ := Option.map_eq_some_iff.1 h
  rw [has_of_shape? ht, hp t s hk]

theorem isSome_body?_of_has {p : Shape α → Bool} {id : ShapeId} (h : d.has p id = true) :
    (d.body? id).isSome := by
  obtain ⟨s, hs, -⟩ := has_iff.1 h
  exact Option.isSome_of_eq_some (body?_eq_some hs)

/-- A shape is of no kind that its own kind excludes. -/
theorem has_eq_false {p q : Shape α → Bool} (hpq : ∀ s, p s = true → q s = false) {id : ShapeId}
    (h : d.has p id = true) : d.has q id = false := by
  obtain ⟨s, hs, hp⟩ := has_iff.1 h
  rw [has_of_shape? hs, hpq s hp]

theorem not_isStep_of_isInput {id : ShapeId} (h : d.has Shape.isInput id = true) :
    d.has Shape.isStep id = false :=
  has_eq_false (fun _ => Shape.isStep_eq_false_of_isInput) h

theorem not_isOutput_of_isInput {id : ShapeId} (h : d.has Shape.isInput id = true) :
    d.has Shape.isOutput id = false :=
  has_eq_false (fun _ => Shape.isOutput_eq_false_of_isInput) h

theorem not_isInput_of_isStep {id : ShapeId} (h : d.has Shape.isStep id = true) :
    d.has Shape.isInput id = false :=
  has_eq_false (fun _ => Shape.isInput_eq_false_of_isStep) h

theorem not_isOutput_of_isStep {id : ShapeId} (h : d.has Shape.isStep id = true) :
    d.has Shape.isOutput id = false :=
  has_eq_false (fun _ => Shape.isOutput_eq_false_of_isStep) h

/-! ## Changing a shape or a magnet -/

theorem shape?_modifyShape (d : Diagram α) (id i : ShapeId) (f : Shape α → Shape α) :
    (d.modifyShape id f).shape? i = if id = i then (d.shape? i).map f else d.shape? i := by
  simp only [shape?, modifyShape, Arena.get?_modify, ShapeId.slot_inj]

theorem body?_modifyShape (d : Diagram α) (id i : ShapeId) {f : Shape α → Shape α}
    (hf : ∀ s, (f s).body = s.body) : (d.modifyShape id f).body? i = d.body? i := by
  simp only [body?, shape?_modifyShape]
  split
  · rw [Option.map_map]
    exact congrArg (Option.map · _) (funext hf)
  · rfl

theorem magnet?_modifyShape (d : Diagram α) (id : ShapeId) (t : Terminal) {f : Shape α → Shape α}
    (hf : ∀ s, (f s).magnets = s.magnets) : (d.modifyShape id f).magnet? t = d.magnet? t := by
  simp only [magnet?_eq, shape?_modifyShape]
  split
  · cases d.shape? t.shape <;> simp [hf]
  · rfl

theorem body?_modifyMagnet (d : Diagram α) (t : Terminal) {f : Magnet α → Magnet α}
    (hf : ∀ m, (f m).clear = m.clear) (i : ShapeId) :
    (d.modifyMagnet t f).body? i = d.body? i :=
  body?_modifyShape d t.shape i fun s => s.body_modifyMagnet t.side t.index hf

theorem magnet?_modifyMagnet (d : Diagram α) (t u : Terminal) (f : Magnet α → Magnet α) :
    (d.modifyMagnet t f).magnet? u = if t = u then (d.magnet? u).map f else d.magnet? u := by
  simp only [magnet?_eq, modifyMagnet, shape?_modifyShape]
  by_cases hs : t.shape = u.shape
  · cases hu : d.shape? u.shape with
    | none => simp [hs]
    | some s =>
      have ht : t = u ↔ t.side = u.side ∧ t.index = u.index := by
        cases t; cases u; simp_all
      simp [hs, ht, Shape.getElem?_magnets_modifyMagnet]
  · have ht : t ≠ u := fun h => hs (h ▸ rfl)
    simp [hs, ht]

theorem shape?_modifyMagnet_of_ne (d : Diagram α) {t : Terminal} (f : Magnet α → Magnet α)
    {i : ShapeId} (h : t.shape ≠ i) : (d.modifyMagnet t f).shape? i = d.shape? i := by
  rw [modifyMagnet, shape?_modifyShape, if_neg h]

/-! ## Changing a cable -/

theorem cable?_modifyCable (d : Diagram α) (id c : CableId) (f : Cable α → Cable α) :
    (d.modifyCable id f).cable? c = if id = c then (d.cable? c).map f else d.cable? c := by
  simp only [cable?, modifyCable, Arena.get?_modify, CableId.slot_inj]

theorem ends?_modifyCable (d : Diagram α) (id c : CableId) {f : Cable α → Cable α}
    (hf : ∀ k, (f k).source = k.source ∧ (f k).dest = k.dest) :
    (d.modifyCable id f).ends? c = d.ends? c := by
  simp only [ends?, cable?_modifyCable]
  split
  · cases d.cable? c <;> simp [hf]
  · rfl

theorem cable?_addCable (d : Diagram α) (k : Cable α) (c : CableId) :
    (d.addCable k).cable? c = if c = d.nextCable then some k else d.cable? c := by
  have hc : c.slot = d.cableSlots.size ↔ c = d.nextCable := CableId.slot_inj (j := d.nextCable)
  simp only [cable?, addCable, Arena.get?_push, hc]

theorem ends?_addCable (d : Diagram α) (k : Cable α) (c : CableId) :
    (d.addCable k).ends? c = if c = d.nextCable then some (k.source, k.dest) else d.ends? c := by
  simp only [ends?, cable?_addCable]
  split <;> rfl

theorem cable?_nextCable (d : Diagram α) : d.cable? d.nextCable = none :=
  Arena.get?_of_size_le (Nat.le_refl _)

theorem ends?_nextCable (d : Diagram α) : d.ends? d.nextCable = none := by
  simp [ends?, cable?_nextCable]

/-! ## Placing and removing a shape -/

theorem shape?_nextShape (d : Diagram α) : d.shape? d.nextShape = none :=
  Arena.get?_of_size_le (Nat.le_refl _)

theorem shape?_placeShape (d : Diagram α) (s : Shape α) (i : ShapeId) :
    (d.placeShape s).shape? i =
      if i = d.nextShape then some (s.mapMagnets Magnet.clear) else d.shape? i := by
  have hi : i.slot = d.shapeSlots.size ↔ i = d.nextShape := ShapeId.slot_inj (j := d.nextShape)
  simp only [shape?, placeShape, Arena.get?_push, hi]

theorem body?_placeShape (d : Diagram α) (s : Shape α) (i : ShapeId) :
    (d.placeShape s).body? i = if i = d.nextShape then some s.body else d.body? i := by
  simp only [body?, shape?_placeShape]
  split
  · rw [Option.map_some, Shape.body_mapMagnets_clear]
  · rfl

theorem magnet?_placeShape (d : Diagram α) (s : Shape α) (t : Terminal) :
    (d.placeShape s).magnet? t =
      if t.shape = d.nextShape then ((s.magnets t.side)[t.index]?).map Magnet.clear
      else d.magnet? t := by
  simp only [magnet?_eq, shape?_placeShape]
  split
  · simp [Shape.magnets_mapMagnets]
  · rfl

@[simp] theorem shapeSlots_modifyKindList (d : Diagram α) (k : Kind α)
    (f : List ShapeId → List ShapeId) : (d.modifyKindList k f).shapeSlots = d.shapeSlots := by
  cases k <;> rfl

@[simp] theorem cableSlots_modifyKindList (d : Diagram α) (k : Kind α)
    (f : List ShapeId → List ShapeId) : (d.modifyKindList k f).cableSlots = d.cableSlots := by
  cases k <;> rfl

@[simp] theorem order_modifyKindList (d : Diagram α) (k : Kind α)
    (f : List ShapeId → List ShapeId) : (d.modifyKindList k f).order = d.order := by
  cases k <;> rfl

@[simp] theorem cableOrder_modifyKindList (d : Diagram α) (k : Kind α)
    (f : List ShapeId → List ShapeId) : (d.modifyKindList k f).cableOrder = d.cableOrder := by
  cases k <;> rfl

theorem shape?_removeShape (d : Diagram α) (id i : ShapeId) :
    (d.removeShape id).shape? i = if id = i then none else d.shape? i := by
  cases h : d.shape? id with
  | none =>
    simp only [removeShape, h]
    by_cases hi : id = i
    · rw [if_pos hi, ← hi, h]
    · rw [if_neg hi]
  | some s =>
    simp only [removeShape, h]
    simp [shape?, Arena.get?_remove, ShapeId.slot_inj]

theorem body?_removeShape (d : Diagram α) (id i : ShapeId) :
    (d.removeShape id).body? i = if id = i then none else d.body? i := by
  simp only [body?, shape?_removeShape]
  split <;> rfl

theorem magnet?_removeShape (d : Diagram α) (id : ShapeId) (t : Terminal) :
    (d.removeShape id).magnet? t = if id = t.shape then none else d.magnet? t := by
  simp only [magnet?_eq, shape?_removeShape]
  split <;> rfl

theorem cableSlots_removeShape (d : Diagram α) (id : ShapeId) :
    (d.removeShape id).cableSlots = d.cableSlots := by
  unfold removeShape
  split
  · rfl
  · simp

theorem cableOrder_removeShape (d : Diagram α) (id : ShapeId) :
    (d.removeShape id).cableOrder = d.cableOrder := by
  unfold removeShape
  split
  · rfl
  · simp

theorem size_shapeSlots_removeShape (d : Diagram α) (id : ShapeId) :
    (d.removeShape id).shapeSlots.size = d.shapeSlots.size := by
  unfold removeShape
  split
  · rfl
  · simp

@[simp] theorem ends?_removeShape (d : Diagram α) (id : ShapeId) (c : CableId) :
    (d.removeShape id).ends? c = d.ends? c := by
  simp [ends?, cable?, cableSlots_removeShape]

/-! ## Hooking and unplugging cables -/

@[simp] theorem body?_hook (d : Diagram α) (c : CableId) (t : Terminal) (i : ShapeId) :
    (d.hook c t).body? i = d.body? i :=
  body?_modifyMagnet d t (f := (·.hook c)) (fun _ => rfl) i

theorem magnet?_hook (d : Diagram α) (c : CableId) (t u : Terminal) :
    (d.hook c t).magnet? u = if t = u then (d.magnet? u).map (·.hook c) else d.magnet? u :=
  magnet?_modifyMagnet d t u _

theorem Magnet.unhook_unhook (m : Magnet α) (c : CableId) :
    (m.unhook c).unhook c = m.unhook c := by
  simp [Magnet.unhook, List.filter_filter]

def unhookFrom (d : Diagram α) (id : CableId) (ts : List Terminal) : Diagram α :=
  ts.foldl (fun d t => d.modifyMagnet t (·.unhook id)) d

theorem body?_unhookFrom (d : Diagram α) (id : CableId) (ts : List Terminal) (i : ShapeId) :
    (d.unhookFrom id ts).body? i = d.body? i := by
  induction ts generalizing d with
  | nil => rfl
  | cons t ts ih =>
    refine (ih _).trans ?_
    exact body?_modifyMagnet d t (f := (·.unhook id)) (fun _ => rfl) i

theorem magnet?_unhookFrom (d : Diagram α) (id : CableId) (ts : List Terminal) (u : Terminal) :
    (d.unhookFrom id ts).magnet? u =
      if u ∈ ts then (d.magnet? u).map (·.unhook id) else d.magnet? u := by
  induction ts generalizing d with
  | nil => simp [unhookFrom]
  | cons t ts ih =>
    refine (ih _).trans ?_
    rw [magnet?_modifyMagnet]
    by_cases ht : t = u
    · subst ht
      simp [Function.comp_def, Magnet.unhook_unhook]
    · simp [ht, Ne.symm ht]

theorem shape?_unhookFrom_of_ne (d : Diagram α) (id : CableId) {ts : List Terminal} {i : ShapeId}
    (h : ∀ t ∈ ts, t.shape ≠ i) : (d.unhookFrom id ts).shape? i = d.shape? i := by
  induction ts generalizing d with
  | nil => rfl
  | cons t ts ih =>
    refine (ih _ fun u hu => h u (List.mem_cons_of_mem t hu)).trans ?_
    exact shape?_modifyMagnet_of_ne d _ (h t List.mem_cons_self)

theorem size_shapeSlots_unhookFrom (d : Diagram α) (id : CableId) (ts : List Terminal) :
    (d.unhookFrom id ts).shapeSlots.size = d.shapeSlots.size := by
  induction ts generalizing d with
  | nil => rfl
  | cons t ts ih => exact (ih _).trans (Arena.size_modify _ _ _)

/-- Everything but the shapes stays as it is when a cable is taken off magnets. -/
theorem unhookFrom_frame (d : Diagram α) (id : CableId) (ts : List Terminal) :
    (d.unhookFrom id ts) = { d with shapeSlots := (d.unhookFrom id ts).shapeSlots } := by
  induction ts generalizing d with
  | nil => rfl
  | cons t ts ih => exact ih _

/-- The diagram without the entry of a cable, which is still hooked to its magnets. -/
def dropCable (d : Diagram α) (id : CableId) : Diagram α :=
  { d with
    cableSlots := d.cableSlots.remove id.slot
    cableOrder := d.cableOrder.filter (· ≠ id) }

theorem unplug_eq (d : Diagram α) (id : CableId) (c : Cable α) :
    d.unplug id c = (d.dropCable id).unhookFrom id c.ends := rfl

theorem Cable.mem_ends {c : Cable α} {u : Terminal} :
    u ∈ c.ends ↔ u = c.source ∨ c.dest = some u := by
  simp [Cable.ends]

@[simp] theorem body?_unplug (d : Diagram α) (id : CableId) (c : Cable α) (i : ShapeId) :
    (d.unplug id c).body? i = d.body? i := body?_unhookFrom (d.dropCable id) id c.ends i

theorem magnet?_unplug (d : Diagram α) (id : CableId) (c : Cable α) (u : Terminal) :
    (d.unplug id c).magnet? u =
      if u ∈ c.ends then (d.magnet? u).map (·.unhook id) else d.magnet? u :=
  magnet?_unhookFrom (d.dropCable id) id c.ends u

theorem cable?_unplug (d : Diagram α) (id : CableId) (k : Cable α) (c : CableId) :
    (d.unplug id k).cable? c = if id = c then none else d.cable? c := by
  rw [unplug_eq, unhookFrom_frame]
  simp only [cable?, dropCable, Arena.get?_remove, CableId.slot_inj]

theorem ends?_unplug (d : Diagram α) (id : CableId) (k : Cable α) (c : CableId) :
    (d.unplug id k).ends? c = if id = c then none else d.ends? c := by
  simp only [ends?, cable?_unplug]
  split <;> rfl

/-- A shape without an end of the cable stays as it is. -/
theorem shape?_unplug_of_ne (d : Diagram α) (id : CableId) {c : Cable α} {i : ShapeId}
    (h : ∀ t ∈ c.ends, t.shape ≠ i) : (d.unplug id c).shape? i = d.shape? i :=
  shape?_unhookFrom_of_ne (d.dropCable id) id h

theorem order_unplug (d : Diagram α) (id : CableId) (c : Cable α) :
    (d.unplug id c).order = d.order := by
  rw [unplug_eq, unhookFrom_frame]
  rfl

theorem size_shapeSlots_unplug (d : Diagram α) (id : CableId) (c : Cable α) :
    (d.unplug id c).shapeSlots.size = d.shapeSlots.size :=
  size_shapeSlots_unhookFrom (d.dropCable id) id c.ends

/-! ## Starting a cable -/

/-- Start a loose cable at a magnet, with its end at a point. -/
def start (d : Diagram α) (source : Terminal) (p : Point α) : Diagram α :=
  (d.addCable (.make source none p)).hook d.nextCable source

@[simp] theorem body?_start (d : Diagram α) (s : Terminal) (p : Point α) (i : ShapeId) :
    (d.start s p).body? i = d.body? i := body?_hook _ _ _ i

theorem magnet?_start (d : Diagram α) (s : Terminal) (p : Point α) (u : Terminal) :
    (d.start s p).magnet? u =
      if s = u then (d.magnet? u).map (·.hook d.nextCable) else d.magnet? u :=
  magnet?_hook (d.addCable _) _ s u

theorem ends?_start (d : Diagram α) (s : Terminal) (p : Point α) (c : CableId) :
    (d.start s p).ends? c = if c = d.nextCable then some (s, none) else d.ends? c :=
  ends?_addCable d _ c

/-! ## Changes that only move things -/

/-- The diagrams differ at most in the places of shapes and loose ends and in drawn curves. -/
structure Alike (d d' : Diagram α) : Prop where
  body : ∀ i, d'.body? i = d.body? i
  magnet : ∀ t, d'.magnet? t = d.magnet? t
  ends : ∀ c, d'.ends? c = d.ends? c
  lists : d' = { d with shapeSlots := d'.shapeSlots, cableSlots := d'.cableSlots }
  shapeSize : d'.shapeSlots.size = d.shapeSlots.size
  cableSize : d'.cableSlots.size = d.cableSlots.size

theorem Alike.refl (d : Diagram α) : Alike d d :=
  ⟨fun _ => rfl, fun _ => rfl, fun _ => rfl, rfl, rfl, rfl⟩

theorem Alike.trans {d₁ d₂ d₃ : Diagram α} (h : Alike d₁ d₂) (h' : Alike d₂ d₃) :
    Alike d₁ d₃ where
  body i := (h'.body i).trans (h.body i)
  magnet t := (h'.magnet t).trans (h.magnet t)
  ends c := (h'.ends c).trans (h.ends c)
  lists := by rw [h'.lists, h.lists]
  shapeSize := h'.shapeSize.trans h.shapeSize
  cableSize := h'.cableSize.trans h.cableSize

/-- A shape is still there, with the same cables. -/
theorem Alike.exists_shape? (h : Alike d d') {i : ShapeId} {s : Shape α}
    (hs : d.shape? i = some s) :
    ∃ s', d'.shape? i = some s' ∧ s'.body = s.body ∧ s'.cables = s.cables := by
  obtain ⟨s', hs', hbody⟩ := Option.map_eq_some_iff.1 ((h.body i).trans (body?_eq_some hs))
  have hmagnets : ∀ side, s'.magnets side = s.magnets side := fun side =>
    List.ext_getElem? fun j => by
      rw [← magnet?_of_shape? (t := ⟨i, side, j⟩) hs', h.magnet]
      exact magnet?_of_shape? hs
  have hin : s'.inputs = s.inputs := hmagnets .input
  have hout : s'.outputs = s.outputs := hmagnets .output
  refine ⟨s', hs', hbody, ?_⟩
  rw [Shape.cables, Shape.allMagnets, hin, hout]
  rfl

theorem alike_modifyShape (d : Diagram α) (id : ShapeId) {f : Shape α → Shape α}
    (hb : ∀ s, (f s).body = s.body) (hm : ∀ s, (f s).magnets = s.magnets) :
    Alike d (d.modifyShape id f) where
  body i := body?_modifyShape d id i hb
  magnet t := magnet?_modifyShape d id t hm
  ends _ := rfl
  lists := rfl
  shapeSize := Arena.size_modify _ _ _
  cableSize := rfl

theorem alike_modifyCable (d : Diagram α) (id : CableId) {f : Cable α → Cable α}
    (hf : ∀ k, (f k).source = k.source ∧ (f k).dest = k.dest) : Alike d (d.modifyCable id f) where
  body _ := rfl
  magnet _ := rfl
  ends c := ends?_modifyCable d id c hf
  lists := rfl
  shapeSize := rfl
  cableSize := Arena.size_modify _ _ _

theorem alike_foldl_forgetCurve (d : Diagram α) (cs : List CableId) :
    Alike d (cs.foldl (fun d c => d.modifyCable c Cable.forgetCurve) d) := by
  induction cs generalizing d with
  | nil => exact .refl d
  | cons c cs ih =>
    refine Alike.trans ?_ (ih _)
    exact alike_modifyCable d c fun _ => ⟨rfl, rfl⟩

theorem alike_forgetCurves (d : Diagram α) (id : ShapeId) : Alike d (d.forgetCurves id) := by
  unfold forgetCurves
  split
  · exact .refl d
  · exact alike_foldl_forgetCurve d _

theorem alike_setPosition (d : Diagram α) (id : ShapeId) (p : Point α) :
    Alike d (d.setPosition id p) := by
  refine Alike.trans ?_ (alike_forgetCurves _ id)
  exact alike_modifyShape d id (fun _ => rfl) fun _ => rfl

/-! ## Landing a cable -/

variable [Scalar α]

/-- Land a cable on a magnet. -/
def land (d : Diagram α) (id : CableId) (dest : Terminal) : Diagram α :=
  let landed := (d.magnetPosition? dest).getD Point.origin
  (d.modifyCable id fun c =>
    { c with dest := some dest, freeEnd := landed }.forgetCurve).hook id dest

theorem shape?_land (d : Diagram α) (c : CableId) (t : Terminal) (i : ShapeId) :
    (d.land c t).shape? i = if t.shape = i then
      (d.shape? i).map (·.modifyMagnet t.side t.index (·.hook c)) else d.shape? i :=
  shape?_modifyShape (d.modifyCable c _) t.shape i _

@[simp] theorem body?_land (d : Diagram α) (c : CableId) (t : Terminal) (i : ShapeId) :
    (d.land c t).body? i = d.body? i := body?_hook _ _ _ i

theorem magnet?_land (d : Diagram α) (c : CableId) (t u : Terminal) :
    (d.land c t).magnet? u = if t = u then (d.magnet? u).map (·.hook c) else d.magnet? u :=
  magnet?_hook (d.modifyCable c _) c t u

theorem ends?_land (d : Diagram α) (id : CableId) (t : Terminal) (c : CableId) :
    (d.land id t).ends? c =
      if id = c then (d.ends? c).map fun (s, _) => (s, some t) else d.ends? c := by
  change (d.modifyCable id _).ends? c = _
  simp only [ends?, cable?_modifyCable]
  split
  · cases d.cable? c <;> rfl
  · rfl

theorem magnetPosition?_hook (d : Diagram α) (c : CableId) (t u : Terminal) :
    (d.hook c t).magnetPosition? u = d.magnetPosition? u := by
  change ((d.modifyShape _ _).shape? _).bind _ = (d.shape? _).bind _
  rw [shape?_modifyShape]
  split
  · cases d.shape? u.shape with
    | none => rfl
    | some s =>
      simp only [Option.map_some, Option.bind_some, Shape.getElem?_magnets_modifyMagnet]
      split
      · cases (s.magnets u.side)[u.index]? <;> cases t.side <;> rfl
      · cases t.side <;> rfl
  · rfl

theorem shape?_join_of_ne (d : Diagram α) {s t : Terminal} {i : ShapeId} (hs : s.shape ≠ i)
    (ht : t.shape ≠ i) : (d.join s t).shape? i = d.shape? i :=
  (shape?_modifyMagnet_of_ne _ _ ht).trans (shape?_modifyMagnet_of_ne (d.addCable _) _ hs)

/-- Joining two magnets leaves the cables alone that are there. -/
theorem cable?_join_of_ne (d : Diagram α) (s t : Terminal) {c : CableId} (h : c ≠ d.nextCable) :
    (d.join s t).cable? c = d.cable? c :=
  (cable?_addCable d _ c).trans (if_neg h)

theorem order_join (d : Diagram α) (s t : Terminal) : (d.join s t).order = d.order := rfl

/-- Joining two magnets is starting a cable at the one and landing it on the other. -/
theorem join_eq_land_start (d : Diagram α) (s t : Terminal) (p : Point α) :
    d.join s t = (d.start s p).land d.nextCable t := by
  have hpos : (d.start s p).magnetPosition? t = d.magnetPosition? t :=
    magnetPosition?_hook (d.addCable _) _ s t
  simp only [join, land, hpos]
  simp only [start, addCable, hook, modifyMagnet, modifyShape, modifyCable, nextCable,
    Arena.modify_push_size]
  rfl

/-! ## Moving everything at once -/

theorem alike_shiftBy (d : Diagram α) (id : ShapeId) (p : Point α) :
    Alike d (d.shiftBy id p) := by
  refine Alike.trans ?_ (alike_forgetCurves _ id)
  exact alike_modifyShape d id (fun _ => rfl) fun _ => rfl

theorem alike_settle (d : Diagram α) : Alike d d.settle where
  body i := by
    simp only [body?, shape?, settle, Arena.get?_map, Option.map_map]
    rfl
  magnet t := by
    simp only [magnet?_eq, shape?, settle, Arena.get?_map]
    cases d.shapeSlots.get? t.shape.slot <;> rfl
  ends _ := rfl
  lists := rfl
  shapeSize := Arena.size_map _ _
  cableSize := rfl

end Diagram

end Patchbay
