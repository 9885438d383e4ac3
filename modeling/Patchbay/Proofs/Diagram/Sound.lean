import Patchbay.Proofs.Diagram.Lists
import Patchbay.Proofs.Diagram.Outcomes
import Patchbay.Proofs.Diagram.Wiring
import Patchbay.Proofs.Shape.Built

/-!
# Sound diagrams

`Sound` is the invariant of a diagram: its lists name what is in the slots, its cables are wired
well, and every shape conforms to its kind. Each elementary change keeps it, and so does deleting:
an output that loses its last cable has no cable at all, because outputs have no output magnets, and
a shape has no cable any more once each of its cables has been cut.
-/

namespace Patchbay

namespace Diagram

variable {α : Type} {d d' : Diagram α} {apart : List ShapeId}

/-! ## What cutting a cable leaves -/

theorem orphan?_eq_some {o : Option Terminal} {i : ShapeId} (h : d.orphan? o = some i) :
    (∃ t, o = some t ∧ t.shape = i) ∧
      ∃ s, d.shape? i = some s ∧ s.isOutput ∧ ∀ m ∈ s.inputs, m.cables = [] := by
  obtain ⟨t, rfl, h⟩ := Option.bind_eq_some_iff.1 h
  obtain ⟨s, hs, h⟩ := Option.bind_eq_some_iff.1 h
  split at h
  · rename_i hout
    cases h
    refine ⟨⟨t, rfl, rfl⟩, s, hs, hout.1, fun m hm => ?_⟩
    have hnone := hout.2
    simp only [List.any_eq_true, not_exists, not_and] at hnone
    simpa [Magnet.isConnected] using hnone m hm
  · cases h

theorem ends?_cut (d : Diagram α) (id : CableId) (k : Cable α) (c : CableId) :
    (d.cut id k).ends? c = if id = c then none else d.ends? c := by
  unfold cut
  split
  · rw [ends?_removeShape, ends?_unplug]
  · rw [ends?_unplug]

theorem touches_cut (d : Diagram α) (id : CableId) (k : Cable α) (c : CableId) (u : Terminal) :
    (d.cut id k).Touches c u ↔ d.Touches c u ∧ c ≠ id := by
  simp only [Touches, ends?_cut]
  by_cases h : id = c <;> simp [h, eq_comm]

/-- Cutting a cable takes no shape along that is not an output. -/
theorem body?_cut_of_not_output {i : ShapeId} (h : d.has Shape.isOutput i = false) (id : CableId)
    (k : Cable α) : (d.cut id k).body? i = d.body? i := by
  unfold cut
  split
  · rename_i j hj
    obtain ⟨-, s, hs, hout, -⟩ := orphan?_eq_some hj
    rw [body?_removeShape, if_neg, body?_unplug]
    rintro rfl
    have hsame : (d.unplug id k).has Shape.isOutput j = d.has Shape.isOutput j :=
      has_congr bodily_isOutput (body?_unplug d id k j)
    rw [h] at hsame
    simp [has, hs, hout] at hsame
  · rw [body?_unplug]

/-- Every cable that ends at the shape is one of those still to be cut. -/
def OnlyPending (d : Diagram α) (id : ShapeId) (pending : List CableId) : Prop :=
  ∀ c u, d.Touches c u → u.shape = id → c ∈ pending

theorem Linked.onlyPending_cables (h : d.Linked) {id : ShapeId} {s : Shape α}
    (hs : d.shape? id = some s) : d.OnlyPending id s.cables := by
  intro c u hc hu
  obtain ⟨m, hm⟩ := Option.isSome_iff_exists.1 (h.end_magnet hc)
  have hmem := (h.mem_cables hm c).2 hc
  rw [magnet?_of_shape? (hu ▸ hs)] at hm
  refine List.mem_flatMap.2 ⟨m, ?_, hmem⟩
  cases hside : u.side <;> rw [hside] at hm
  · exact List.mem_append_left _ (List.mem_of_getElem? hm)
  · exact List.mem_append_right _ (List.mem_of_getElem? hm)

theorem Linked.touches_of_mem_cables (h : d.Linked) {id : ShapeId} {s : Shape α}
    (hs : d.shape? id = some s) {c : CableId} (hc : c ∈ s.cables) :
    ∃ u, u.shape = id ∧ d.Touches c u := by
  obtain ⟨m, hm, hcm⟩ := List.mem_flatMap.1 hc
  rcases List.mem_append.1 hm with hm | hm
  · obtain ⟨i, hi⟩ := List.mem_iff_getElem?.1 hm
    have hmag : d.magnet? ⟨id, .input, i⟩ = some m := (magnet?_of_shape? hs).trans hi
    exact ⟨_, rfl, (h.mem_cables hmag c).1 hcm⟩
  · obtain ⟨i, hi⟩ := List.mem_iff_getElem?.1 hm
    have hmag : d.magnet? ⟨id, .output, i⟩ = some m := (magnet?_of_shape? hs).trans hi
    exact ⟨_, rfl, (h.mem_cables hmag c).1 hcm⟩

theorem Linked.bareAt_of_onlyPending (h : d.Linked) {id : ShapeId} (hp : d.OnlyPending id [])
    {u : Terminal} (hu : u.shape = id) : d.BareAt u := by
  intro m hm
  refine List.eq_nil_iff_forall_not_mem.2 fun c hc => ?_
  exact List.not_mem_nil (hp c u ((h.mem_cables hm c).1 hc) hu)

theorem OnlyPending.cutIfThere {id : ShapeId} {c : CableId} {pending : List CableId}
    (hp : d.OnlyPending id (c :: pending)) : (d.cutIfThere c).OnlyPending id pending := by
  intro x u hx hu
  unfold Diagram.cutIfThere at hx
  split at hx
  · obtain ⟨hx, hne⟩ := (touches_cut d c _ x u).1 hx
    exact (List.mem_cons.1 (hp x u hx hu)).resolve_left hne
  · rename_i hgone
    refine (List.mem_cons.1 (hp x u hx hu)).resolve_left ?_
    rintro rfl
    obtain ⟨s, o, he, -⟩ := hx
    simp [ends?, hgone] at he

/-- To delete a shape that has just been added is to remove it. -/
theorem run_deleteShape_addShape (d : Diagram α) (s : Shape α) :
    (Edit.deleteShape d.nextShape).run (d.addShape s) =
      (.ok (), (d.addShape s).removeShape d.nextShape) := by
  rw [Edit.run_deleteShape, shape?_addShape]
  simp only [Shape.cables_mapMagnets_clear, List.foldl_nil]

/-! ## The invariant -/

variable [Scalar α]

/-- Every shape is as it was built, but for its place and its cables. -/
def Conforming (d : Diagram α) : Prop := ∀ i b, d.body? i = some b → b.Conforms

theorem Conforming.shape (h : d.Conforming) {id : ShapeId} {s : Shape α}
    (hs : d.shape? id = some s) : s.body.Conforms :=
  h id s.body (body?_eq_some hs)

/-- Everything that a diagram says several times agrees, up to shapes that are kept apart. -/
structure Sound (d : Diagram α) (apart : List ShapeId) : Prop extends
    ShapesListed d apart, CablesListed d, Wired d where
  conforming : d.Conforming

theorem sound_blank : (blank : Diagram α).Sound [] where
  order_nodup := List.nodup_nil
  mem_order i := by simp [blank, body?, shape?]
  inputs_eq := rfl
  steps_eq := rfl
  outputs_eq := rfl
  cableOrder_nodup := List.nodup_nil
  mem_cableOrder c := by simp [blank, ends?, cable?]
  end_magnet h := by simp [blank, Touches, ends?, cable?] at h
  mem_cables h := by simp [blank, magnet?_eq, shape?] at h
  nodup h := by simp [blank, magnet?_eq, shape?] at h
  source_side h := by simp [blank, ends?, cable?] at h
  dest_side h := by simp [blank, ends?, cable?] at h
  single h := by simp [blank, magnet?_eq, shape?] at h
  accepts h := by simp [blank, ends?, cable?] at h
  acyclic a h := by
    obtain ⟨b, ⟨c, s, t, hc, -⟩, -⟩ := Relation.TransGen.head'_iff.1 h
    simp [blank, ends?, cable?] at hc
  conforming i b h := by simp [blank, body?, shape?] at h

/-! ## Elementary changes -/

theorem Conforming.congr (h : d.Conforming) (hb : ∀ i, d'.body? i = d.body? i) :
    d'.Conforming :=
  fun i b hi => h i b (hb i ▸ hi)

theorem Conforming.placeShape (h : d.Conforming) {s : Shape α} (hs : s.body.Conforms) :
    (d.placeShape s).Conforming := by
  intro i b hi
  rw [body?_placeShape] at hi
  split at hi
  · exact Option.some.inj hi ▸ hs
  · exact h i b hi

theorem Conforming.removeShape (h : d.Conforming) (id : ShapeId) :
    (d.removeShape id).Conforming := by
  intro i b hi
  rw [body?_removeShape] at hi
  split at hi
  · cases hi
  · exact h i b hi

theorem Sound.alike (h : d.Sound apart) (ha : Alike d d') : d'.Sound apart where
  toShapesListed := ha.shapesListed h.toShapesListed
  toCablesListed := h.toCablesListed.congr (fun c => by rw [ha.ends]) (by rw [ha.lists])
  toWired := ha.wired h.toWired
  conforming := h.conforming.congr ha.body

theorem Sound.placeShape (h : d.Sound apart) {s : Shape α} (hs : s.body.Conforms) :
    (d.placeShape s).Sound (d.nextShape :: apart) where
  toShapesListed := h.toShapesListed.placeShape s
  toCablesListed := h.toCablesListed.congr (fun _ => rfl) rfl
  toWired := h.toWired.placeShape s
  conforming := h.conforming.placeShape hs

theorem Sound.addShape (h : d.Sound []) {s : Shape α} (hs : s.body.Conforms) :
    (d.addShape s).Sound [] where
  toShapesListed := h.toShapesListed.addShape s
  toCablesListed := h.toCablesListed.congr (fun c => by rw [ends?_addShape])
    (cableOrder_addShape d s)
  toWired := (h.toWired.placeShape s).of_frame (ends?_addShape d s) fun u =>
    .inl (magnet?_addShape d s u)
  conforming := (h.conforming.placeShape hs).congr (body?_addShape d s)

theorem Sound.removeShape (h : d.Sound apart) {id : ShapeId}
    (hbare : ∀ u : Terminal, u.shape = id → d.BareAt u) : (d.removeShape id).Sound apart where
  toShapesListed := h.toShapesListed.removeShape id
  toCablesListed := h.toCablesListed.congr (fun c => by rw [ends?_removeShape])
    (cableOrder_removeShape d id)
  toWired := h.toWired.removeShape hbare
  conforming := h.conforming.removeShape id

theorem Sound.unplug (h : d.Sound apart) {id : CableId} {k : Cable α}
    (hk : d.cable? id = some k) : (d.unplug id k).Sound apart where
  toShapesListed := h.toShapesListed.unplug id k
  toCablesListed := h.toCablesListed.unplug id k
  toWired := h.toWired.unplug hk
  conforming := h.conforming.congr (body?_unplug d id k)

theorem Sound.start (h : d.Sound apart) {s : Terminal} (p : Point α)
    (hlive : (d.magnet? s).isSome) (hside : s.side = .output) : (d.start s p).Sound apart where
  toShapesListed := h.toShapesListed.start s p
  toCablesListed := h.toCablesListed.start s p
  toWired := h.toWired.start p hlive hside
  conforming := h.conforming.congr (body?_start d s p)

theorem Sound.land (h : d.Sound apart) {id : CableId} {s t : Terminal}
    (hid : d.ends? id = some (s, none)) (hl : d.Landable s t) : (d.land id t).Sound apart where
  toShapesListed := h.toShapesListed.land id t
  toCablesListed := h.toCablesListed.land id t
  toWired := h.toWired.land hid hl
  conforming := h.conforming.congr (body?_land d id t)

theorem Sound.join (h : d.Sound apart) {s t : Terminal} (hside : s.side = .output)
    (hl : d.Landable s t) : (d.join s t).Sound apart where
  toShapesListed := by
    rw [join_eq_land_start d s t Point.origin]
    exact (h.toShapesListed.start s _).land _ t
  toCablesListed := by
    rw [join_eq_land_start d s t Point.origin]
    exact (h.toCablesListed.start s _).land _ t
  toWired := h.toWired.join hside hl
  conforming := h.conforming.congr (body?_join d s t)

/-! ## Deleting -/

/-- An output has one magnet. -/
theorem Conforming.eq_of_isOutput (h : d.Conforming) {t : Terminal} {m : Magnet α}
    (hout : d.has Shape.isOutput t.shape = true) (hm : d.magnet? t = some m) :
    t = ⟨t.shape, .input, 0⟩ := by
  obtain ⟨s, hs, ho⟩ := has_iff.1 hout
  obtain ⟨datatype, hk⟩ := Shape.isOutput_iff.1 ho
  rw [magnet?_of_shape? hs] at hm
  cases hside : t.side with
  | input =>
    obtain ⟨n, hn, -⟩ := (h.shape hs).inputs_of_output hk
    obtain ⟨hj, -⟩ := List.getElem?_eq_some_iff.1 hm
    rw [hside, Shape.magnets, hn, List.length_singleton, Nat.lt_one_iff] at hj
    rw [← hside, ← hj]
  | output =>
    have hnil : s.outputs = [] := List.map_eq_nil_iff.1 ((h.shape hs).outputs_eq_nil hk)
    rw [hside, Shape.magnets, hnil] at hm
    cases hm

/-- No cable ends at an output that has lost its cable. -/
theorem Conforming.bareAt_orphan (h : d.Conforming) {o : Option Terminal} {i : ShapeId}
    (ho : d.orphan? o = some i) {u : Terminal} (hu : u.shape = i) : d.BareAt u := by
  obtain ⟨-, s, hs, hout, hin⟩ := orphan?_eq_some ho
  rw [← hu] at hs
  intro m hm
  have hplace := h.eq_of_isOutput (has_iff.2 ⟨s, hs, hout⟩) hm
  rw [magnet?_of_shape? hs, hplace] at hm
  exact hin m (List.mem_of_getElem? hm)

theorem Sound.cut (h : d.Sound apart) {id : CableId} {k : Cable α} (hk : d.cable? id = some k) :
    (d.cut id k).Sound apart := by
  have hu := h.unplug hk
  unfold Diagram.cut
  split
  · rename_i i hi
    exact hu.removeShape fun u => hu.conforming.bareAt_orphan hi
  · exact hu

theorem Sound.cutIfThere (h : d.Sound apart) (c : CableId) : (d.cutIfThere c).Sound apart := by
  unfold Diagram.cutIfThere
  split
  · exact h.cut ‹_›
  · exact h

/-- Once all its cables have been cut, a shape may go. -/
theorem Sound.removeShape_foldl (h : d.Sound apart) {id : ShapeId} {pending : List CableId}
    (hp : d.OnlyPending id pending) :
    ((pending.foldl Diagram.cutIfThere d).removeShape id).Sound apart := by
  induction pending generalizing d with
  | nil => exact h.removeShape fun u hu => h.bareAt_of_onlyPending hp hu
  | cons c pending ih => exact ih (h.cutIfThere c) hp.cutIfThere

end Diagram

end Patchbay
