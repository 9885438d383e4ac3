import Mathlib.Data.Set.Insert
import Patchbay.Proofs.Diagram.Places

/-!
# What goes with what

A shape does not go without the cables that end at it, and a cable does not go without the output
that it leads to (`Takes`). What goes with an item, directly or through others, is its `cascade`.

`d.Loses gone d'` says that `d'` is `d` without the items in `gone`, and the same otherwise, down to
the order of the lists. Elementary removals are of this kind, and so are removals in a row
(`Loses.trans`). What is left depends on nothing but what went (`Loses.unique`), and it does not
matter whether an item takes others along before or after something else has gone
(`Loses.union_cascade`).
-/

namespace Patchbay

open Relation

variable {α : Type}

/-! ## What stays when items go -/

open scoped Classical in
/-- The item is not one of those that go. -/
noncomputable def stays (gone : Set Item) (x : Item) : Bool := x ∉ gone

@[simp] theorem stays_iff {g : Set Item} {x : Item} : stays g x = true ↔ x ∉ g := by
  simp [stays]

@[simp] theorem stays_eq_false_iff {g : Set Item} {x : Item} : stays g x = false ↔ x ∈ g := by
  simp [stays]

theorem stays_union (g g' : Set Item) (x : Item) :
    stays (g ∪ g') x = (stays g' x && stays g x) := by
  rw [Bool.eq_iff_iff]
  simp [and_comm]

theorem stays_singleton (x y : Item) : stays {y} x = decide (x ≠ y) := by
  rw [Bool.eq_iff_iff]
  simp

theorem filter_stays_union {β : Type} (f : β → Item) (g g' : Set Item) (l : List β) :
    (l.filter fun b => stays g (f b)).filter (fun b => stays g' (f b)) =
      l.filter fun b => stays (g ∪ g') (f b) := by
  simp only [List.filter_filter, stays_union]

/-- The magnet without the cables that go. -/
noncomputable def Magnet.without (m : Magnet α) (gone : Set Item) : Magnet α :=
  { m with cables := m.cables.filter fun c => stays gone (.cable c) }

/-- The shape without the cables that go. -/
noncomputable def Shape.without (s : Shape α) (gone : Set Item) : Shape α :=
  s.mapMagnets (·.without gone)

theorem Magnet.without_without (m : Magnet α) (g g' : Set Item) :
    (m.without g).without g' = m.without (g ∪ g') := by
  simp only [without, filter_stays_union]

theorem Magnet.unhook_eq_without (m : Magnet α) (c : CableId) :
    m.unhook c = m.without {.cable c} := by
  simp [unhook, without, stays_singleton]

theorem Magnet.without_eq_self {m : Magnet α} {g : Set Item} (h : ∀ c ∈ m.cables, .cable c ∉ g) :
    m.without g = m := by
  rw [without, List.filter_eq_self.2 fun c hc => stays_iff.2 (h c hc)]

theorem Shape.without_without (s : Shape α) (g g' : Set Item) :
    (s.without g).without g' = s.without (g ∪ g') := by
  simp [without, mapMagnets, Function.comp_def, Magnet.without_without]

theorem Shape.body_without (s : Shape α) (g : Set Item) : (s.without g).body = s.body := by
  simp [without, mapMagnets, body, Function.comp_def, Magnet.clear, Magnet.without]

theorem Shape.without_eq_self {s : Shape α} {g : Set Item} (h : ∀ c ∈ s.cables, .cable c ∉ g) :
    s.without g = s := by
  have hmap : ∀ ms ⊆ s.allMagnets, ms.map (·.without g) = ms := by
    intro ms hms
    refine (List.map_congr_left fun m hm => ?_).trans (List.map_id ms)
    exact Magnet.without_eq_self fun c hc => h c (List.mem_flatMap.2 ⟨m, hms hm, hc⟩)
  rw [without, mapMagnets, hmap s.inputs (List.subset_append_left _ _),
    hmap s.outputs (List.subset_append_right _ _)]

namespace Diagram

variable {d d' d'' d₁ d₂ : Diagram α} {g g' : Set Item} {x y : Item}

/-! ## Items that take others along -/

def Holds (d : Diagram α) : Item → Prop
  | .shape id => (d.shape? id).isSome
  | .cable id => (d.cable? id).isSome

theorem not_holds_shape_iff {i : ShapeId} : ¬ d.Holds (.shape i) ↔ d.shape? i = none := by
  rw [Holds, Bool.not_eq_true, Option.isSome_eq_false_iff, Option.isNone_iff_eq_none]

theorem not_holds_cable_iff {c : CableId} : ¬ d.Holds (.cable c) ↔ d.cable? c = none := by
  rw [Holds, Bool.not_eq_true, Option.isSome_eq_false_iff, Option.isNone_iff_eq_none]

/-- When the one goes, the other goes: a shape takes along the cables that end at it, and a cable
takes along the output that it leads to. -/
inductive Takes (d : Diagram α) : Item → Item → Prop
  | cable {i c u} (h : d.Touches c u) (hu : u.shape = i) : Takes d (.shape i) (.cable c)
  | output {i c s t} (h : d.ends? c = some (s, some t)) (ht : t.shape = i)
      (hout : d.has Shape.isOutput i = true) : Takes d (.cable c) (.shape i)

/-- The item and all that it takes along, directly or through others. -/
def cascade (d : Diagram α) (x : Item) : Set Item := {y | ReflTransGen d.Takes x y}

/-- What the items take along is among them. -/
def Closed (d : Diagram α) (g : Set Item) : Prop := ∀ x ∈ g, ∀ y, d.Takes x y → y ∈ g

theorem closed_cascade (d : Diagram α) (x : Item) : d.Closed (d.cascade x) :=
  fun _ hy _ hyz => ReflTransGen.tail hy hyz

theorem Linked.holds_of_takes (h : d.Linked) (hxy : d.Takes x y) : d.Holds x := by
  cases hxy with
  | cable hc hu =>
    have hlive := h.live hc
    rwa [hu, isSome_body?] at hlive
  | @output i c s t hc =>
    have hlive := isSome_ends? d c
    rw [hc] at hlive
    exact hlive.symm

/-- What is not there takes nothing along. -/
theorem Linked.cascade_of_not_holds (h : d.Linked) (hx : ¬ d.Holds x) : d.cascade x = {x} := by
  ext y
  refine ⟨fun hy => ?_, fun hy => ?_⟩
  · rcases ReflTransGen.cases_head hy with rfl | ⟨z, hxz, -⟩
    · rfl
    · exact absurd (h.holds_of_takes hxz) hx
  · rw [Set.mem_singleton_iff.1 hy]
    exact ReflTransGen.refl

/-! ## What is left -/

/-- `d'` is what is left of `d` when the items go. All else is as it was, in the same order. -/
structure Loses (d : Diagram α) (gone : Set Item) (d' : Diagram α) : Prop where
  shape : ∀ i, d'.shape? i =
    if stays gone (.shape i) then (d.shape? i).map (·.without gone) else none
  cable : ∀ c, d'.cable? c = if stays gone (.cable c) then d.cable? c else none
  order : d'.order = d.order.filter fun i => stays gone (.shape i)
  cableOrder : d'.cableOrder = d.cableOrder.filter fun c => stays gone (.cable c)
  shapeSize : d'.shapeSlots.size = d.shapeSlots.size
  cableSize : d'.cableSlots.size = d.cableSlots.size

theorem Loses.trans (h : d.Loses g d') (h' : d'.Loses g' d'') : d.Loses (g ∪ g') d'' where
  shape i := by
    rw [h'.shape, h.shape, stays_union]
    cases stays g (.shape i) <;> cases stays g' (.shape i) <;>
      simp [Function.comp_def, Shape.without_without]
  cable c := by
    rw [h'.cable, h.cable, stays_union]
    cases stays g (.cable c) <;> cases stays g' (.cable c) <;> simp
  order := by rw [h'.order, h.order, filter_stays_union]
  cableOrder := by rw [h'.cableOrder, h.cableOrder, filter_stays_union]
  shapeSize := h'.shapeSize.trans h.shapeSize
  cableSize := h'.cableSize.trans h.cableSize

theorem Loses.body? (h : d.Loses g d') (i : ShapeId) :
    d'.body? i = if stays g (.shape i) then d.body? i else none := by
  simp only [Diagram.body?, h.shape]
  split
  · rw [Option.map_map]
    exact congrArg (Option.map · _) (funext fun s => s.body_without g)
  · rfl

theorem Loses.place? (h : d.Loses g d') (i : ShapeId) :
    d'.place? i = if stays g (.shape i) then d.place? i else none := by
  simp only [Diagram.place?, h.shape]
  split
  · rw [Option.map_map]
    rfl
  · rfl

/-- A shape that stays with all its cables is as it was. -/
theorem Loses.shape?_of_apart (h : d.Loses g d') {i : ShapeId} {s : Shape α}
    (hs : d.shape? i = some s) (hi : .shape i ∉ g) (hc : ∀ c ∈ s.cables, .cable c ∉ g) :
    d'.shape? i = some s := by
  rw [h.shape, if_pos (stays_iff.2 hi), hs, Option.map_some, Shape.without_eq_self hc]

theorem Loses.has_iff (h : d.Loses g d') {p : Shape α → Bool} (hp : Bodily p) (i : ShapeId) :
    d'.has p i = true ↔ d.has p i = true ∧ .shape i ∉ g := by
  have hi := h.body? i
  by_cases hstays : .shape i ∉ g
  · rw [if_pos (stays_iff.2 hstays)] at hi
    rw [has_congr hp hi]
    simp [hstays]
  · rw [if_neg (mt stays_iff.1 hstays), body?_eq_none_iff] at hi
    simp [has, hi, hstays]

theorem Loses.ends?_eq_some_iff (h : d.Loses g d') {c : CableId}
    {e : Terminal × Option Terminal} :
    d'.ends? c = some e ↔ d.ends? c = some e ∧ .cable c ∉ g := by
  simp only [ends?, h.cable]
  by_cases hstays : .cable c ∉ g
  · rw [if_pos (stays_iff.2 hstays)]
    simp [hstays]
  · rw [if_neg (mt stays_iff.1 hstays)]
    simp [hstays]

theorem Loses.touches_iff (h : d.Loses g d') {c : CableId} {u : Terminal} :
    d'.Touches c u ↔ d.Touches c u ∧ .cable c ∉ g := by
  simp only [Touches, h.ends?_eq_some_iff]
  constructor
  · rintro ⟨s, o, ⟨hc, hleft⟩, hu⟩
    exact ⟨⟨s, o, hc, hu⟩, hleft⟩
  · rintro ⟨⟨s, o, hc, hu⟩, hleft⟩
    exact ⟨s, o, ⟨hc, hleft⟩, hu⟩

/-- What is left takes along what it took along before, if that is left too. -/
theorem Loses.takes_iff (h : d.Loses g d') (hg : d.Closed g) :
    d'.Takes x y ↔ d.Takes x y ∧ y ∉ g := by
  constructor
  · intro hxy
    cases hxy with
    | cable hc hu =>
      obtain ⟨hc, hleft⟩ := h.touches_iff.1 hc
      exact ⟨.cable hc hu, hleft⟩
    | output hc ht hout =>
      obtain ⟨hout, hleft⟩ := (h.has_iff bodily_isOutput _).1 hout
      exact ⟨.output (h.ends?_eq_some_iff.1 hc).1 ht hout, hleft⟩
  · rintro ⟨hxy, hleft⟩
    have hx : x ∉ g := fun hx => hleft (hg x hx y hxy)
    cases hxy with
    | cable hc hu => exact .cable (h.touches_iff.2 ⟨hc, hleft⟩) hu
    | output hc ht hout =>
      have hout' := (h.has_iff bodily_isOutput _).2 ⟨hout, hleft⟩
      exact .output (h.ends?_eq_some_iff.2 ⟨hc, hx⟩) ht hout'

/-- Whatever else has gone before, an item takes along what it would have taken along, but for what
has gone already. -/
theorem Loses.union_cascade (h : d.Loses g d') (hg : d.Closed g) (x : Item) :
    g ∪ d'.cascade x = g ∪ d.cascade x := by
  ext y
  constructor
  · rintro (hy | hy)
    · exact .inl hy
    · exact .inr (ReflTransGen.mono (fun a b hab => ((h.takes_iff hg).1 hab).1) _ _ hy)
  · rintro (hy | hy)
    · exact .inl hy
    -- a path that has come to what is gone stays there
    · induction hy with
      | refl => exact .inr .refl
      | @tail y z _ hyz ih =>
        by_cases hz : z ∈ g
        · exact .inl hz
        · have hy : y ∈ d'.cascade x := ih.resolve_left fun hy => hz (hg y hy z hyz)
          exact .inr (ReflTransGen.tail hy ((h.takes_iff hg).2 ⟨hyz, hz⟩))

/-- What is left is determined by what goes. -/
theorem Loses.unique (h₁ : d.Loses g d₁) (h₂ : d.Loses g d₂) (hl₁ : d₁.ShapesListed [])
    (hl₂ : d₂.ShapesListed []) : d₁ = d₂ := by
  have hshape : ∀ i, d₁.shape? i = d₂.shape? i := fun i => (h₁.shape i).trans (h₂.shape i).symm
  have hcable : ∀ c, d₁.cable? c = d₂.cable? c := fun c => (h₁.cable c).trans (h₂.cable c).symm
  have hhas : d₁.has = d₂.has := funext₂ fun p i => congrArg (Option.any p) (hshape i)
  have horder : d₁.order = d₂.order := h₁.order.trans h₂.order.symm
  have hshapes : d₁.shapeSlots = d₂.shapeSlots :=
    Arena.ext_get? (h₁.shapeSize.trans h₂.shapeSize.symm) fun i => hshape ⟨i⟩
  have hcables : d₁.cableSlots = d₂.cableSlots :=
    Arena.ext_get? (h₁.cableSize.trans h₂.cableSize.symm) fun i => hcable ⟨i⟩
  have hinputs : d₁.inputs = d₂.inputs := by rw [hl₁.inputs_eq, hl₂.inputs_eq, horder, hhas]
  have hsteps : d₁.steps = d₂.steps := by rw [hl₁.steps_eq, hl₂.steps_eq, horder, hhas]
  have houtputs : d₁.outputs = d₂.outputs := by rw [hl₁.outputs_eq, hl₂.outputs_eq, horder, hhas]
  have hcableOrder : d₁.cableOrder = d₂.cableOrder := h₁.cableOrder.trans h₂.cableOrder.symm
  cases d₁
  cases d₂
  cases hshapes
  cases hcables
  cases horder
  cases hinputs
  cases hsteps
  cases houtputs
  cases hcableOrder
  rfl

/-! ## Elementary changes -/

/-- To lose what is not there is to lose nothing. -/
theorem loses_of_not_holds [Scalar α] (h : d.Sound []) (hg : ∀ x ∈ g, ¬ d.Holds x) :
    d.Loses g d where
  shape i := by
    split
    · cases hs : d.shape? i with
      | none => rfl
      | some s =>
        rw [Option.map_some, Shape.without_eq_self]
        intro c hc hgone
        obtain ⟨u, -, s, o, hso, -⟩ := h.touches_of_mem_cables hs hc
        refine hg _ hgone ?_
        rw [Holds, ← isSome_ends?, hso]
        rfl
    · rename_i hgone
      exact not_holds_shape_iff.1 (hg _ (by simpa using hgone))
  cable c := by
    split
    · rfl
    · rename_i hgone
      exact not_holds_cable_iff.1 (hg _ (by simpa using hgone))
  order := by
    refine (List.filter_eq_self.2 fun i hi => stays_iff.2 fun hgone => hg _ hgone ?_).symm
    rw [Holds, ← isSome_body?]
    exact ((h.mem_order i).1 hi).1
  cableOrder := by
    refine (List.filter_eq_self.2 fun c hc => stays_iff.2 fun hgone => hg _ hgone ?_).symm
    rw [Holds, ← isSome_ends?]
    exact (h.mem_cableOrder c).1 hc
  shapeSize := rfl
  cableSize := rfl

theorem Sound.loses_cascade_of_not_holds [Scalar α] (h : d.Sound []) (hx : ¬ d.Holds x) :
    d.Loses (d.cascade x) d := by
  rw [h.cascade_of_not_holds hx]
  exact loses_of_not_holds h fun y hy => Set.mem_singleton_iff.1 hy ▸ hx

theorem loses_unplug (h : d.Linked) {id : CableId} {k : Cable α} (hk : d.cable? id = some k) :
    d.Loses {.cable id} (d.unplug id k) where
  shape i := by
    rw [if_pos (by simp)]
    cases hs : d.shape? i with
    | none => rw [Option.map_none, ← body?_eq_none_iff, body?_unplug, body?_eq_none_iff, hs]
    | some s =>
      refine shape?_eq_some_of_views ?_ ?_ fun side j => ?_
      · rw [body?_unplug, body?_eq_some hs, Shape.body_without]
      · rw [place?_unplug, place?, hs]
        rfl
      · have hmap : (s.without {.cable id}).magnets side = (s.magnets side).map (·.unhook id) := by
          rw [funext fun m : Magnet α => m.unhook_eq_without id]
          exact s.magnets_mapMagnets side _
        rw [h.magnet?_unplug hk, magnet?_of_shape? hs, hmap, List.getElem?_map]
  cable c := by
    rw [cable?_unplug, stays_singleton]
    by_cases hc : id = c
    · simp [hc]
    · simp [hc, Ne.symm hc]
  order := by
    rw [order_unplug]
    simp [stays_singleton]
  cableOrder := by
    rw [unplug_eq, unhookFrom_frame]
    simp [dropCable, stays_singleton]
  shapeSize := size_shapeSlots_unplug d id k
  cableSize := by
    rw [unplug_eq, unhookFrom_frame]
    exact Arena.size_remove _ _

theorem loses_removeShape {apart : List ShapeId} (h : d.ShapesListed apart) (id : ShapeId) :
    d.Loses {.shape id} (d.removeShape id) where
  shape i := by
    have hmap : (d.shape? i).map (·.without {.shape id}) = d.shape? i := by
      cases d.shape? i with
      | none => rfl
      | some s => exact congrArg some (Shape.without_eq_self fun c _ => by simp)
    rw [shape?_removeShape, hmap, stays_singleton]
    by_cases hi : id = i
    · simp [hi]
    · simp [hi, Ne.symm hi]
  cable c := by
    rw [if_pos (by simp), cable?, cableSlots_removeShape, cable?]
  order := by
    rw [order_removeShape h]
    simp [stays_singleton]
  cableOrder := by
    rw [cableOrder_removeShape]
    simp [stays_singleton]
  shapeSize := size_shapeSlots_removeShape d id
  cableSize := by rw [cableSlots_removeShape]

end Diagram

end Patchbay
