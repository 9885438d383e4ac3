import Patchbay.Proofs.Diagram.Histories
import Patchbay.Proofs.Sums

/-!
# Where shapes are

A shape is shifted from where it rests. Of all changes only three touch that: a shape is put
elsewhere, a shape is shifted, and all shapes are settled. This is one more view of a diagram
(`place?`), with an equation for each elementary change.

On doubles a shift is never negative zero, for it starts as zero, and what is added to it afterwards
does not make it so (`Reachable.unsigned`). Hence settling a shape does not even change the bits of
its centre (`centre?_settle`).
-/

namespace Patchbay

namespace Diagram

open Running

variable {α : Type} {d d' : Diagram α} {i id : ShapeId}

/-! ## The view -/

/-- Where a shape rests and how far it is shifted from there, if it is there. -/
def place? (d : Diagram α) (i : ShapeId) : Option (Point α × Point α) :=
  (d.shape? i).map fun s => (s.position, s.shift)

theorem place?_congr (h : d'.shape? i = d.shape? i) : d'.place? i = d.place? i :=
  congrArg (Option.map _) h

/-- A shape is determined by what can be seen of it. -/
theorem shape?_eq_some_of_views {i : ShapeId} {s : Shape α} (hb : d.body? i = some s.body)
    (hp : d.place? i = some (s.position, s.shift))
    (hm : ∀ side j, d.magnet? ⟨i, side, j⟩ = (s.magnets side)[j]?) : d.shape? i = some s := by
  obtain ⟨s', hs', hbody⟩ := Option.map_eq_some_iff.1 hb
  have hplace : (s'.position, s'.shift) = (s.position, s.shift) := by
    simpa [place?, hs'] using hp
  have hmagnets : ∀ side, s'.magnets side = s.magnets side := fun side =>
    List.ext_getElem? fun j => (magnet?_of_shape? hs').symm.trans (hm side j)
  have hin : s'.inputs = s.inputs := hmagnets .input
  have hout : s'.outputs = s.outputs := hmagnets .output
  have hkind : s'.kind = s.kind := congrArg Shape.Body.kind hbody
  have hlabel : s'.label = s.label := congrArg Shape.Body.label hbody
  rw [hs']
  cases s
  cases s'
  cases hplace
  cases hin
  cases hout
  cases hkind
  cases hlabel
  rfl

theorem place?_modifyShape_of_eq (d : Diagram α) (id i : ShapeId) {f : Shape α → Shape α}
    (hf : ∀ s, (f s).position = s.position ∧ (f s).shift = s.shift) :
    (d.modifyShape id f).place? i = d.place? i := by
  simp only [place?, shape?_modifyShape]
  split
  · cases d.shape? i <;> simp [hf]
  · rfl

theorem place?_modifyMagnet (d : Diagram α) (t : Terminal) (f : Magnet α → Magnet α)
    (i : ShapeId) : (d.modifyMagnet t f).place? i = d.place? i := by
  refine place?_modifyShape_of_eq d t.shape i fun s => ?_
  cases t.side <;> exact ⟨rfl, rfl⟩

theorem place?_placeShape (d : Diagram α) (s : Shape α) (i : ShapeId) :
    (d.placeShape s).place? i =
      if i = d.nextShape then some (s.position, s.shift) else d.place? i := by
  simp only [place?, shape?_placeShape]
  split <;> rfl

theorem place?_addShape (d : Diagram α) (s : Shape α) (i : ShapeId) :
    (d.addShape s).place? i = (d.placeShape s).place? i := by
  simp only [place?, shape?, shapeSlots_addShape]

theorem place?_removeShape (d : Diagram α) (id i : ShapeId) :
    (d.removeShape id).place? i = if id = i then none else d.place? i := by
  simp only [place?, shape?_removeShape]
  split <;> rfl

theorem place?_unplug (d : Diagram α) (id : CableId) (c : Cable α) (i : ShapeId) :
    (d.unplug id c).place? i = d.place? i := by
  rw [unplug_eq]
  change _ = (d.dropCable id).place? i
  generalize d.dropCable id = d
  induction c.ends generalizing d with
  | nil => rfl
  | cons t ts ih => exact (ih _).trans (place?_modifyMagnet d t _ i)

theorem place?_start (d : Diagram α) (s : Terminal) (p : Point α) (i : ShapeId) :
    (d.start s p).place? i = d.place? i :=
  place?_modifyMagnet (d.addCable _) s _ i

theorem shape?_forgetCurves (d : Diagram α) (id i : ShapeId) :
    (d.forgetCurves id).shape? i = d.shape? i := by
  unfold forgetCurves
  split
  · rfl
  · rename_i s _
    generalize s.cables = cs
    clear * -
    induction cs generalizing d with
    | nil => rfl
    | cons c cs ih => exact ih (d.modifyCable c Cable.forgetCurve)

theorem place?_setPosition (d : Diagram α) (id : ShapeId) (p : Point α) (i : ShapeId) :
    (d.setPosition id p).place? i =
      if id = i then (d.place? i).map fun x => (p, x.2) else d.place? i := by
  simp only [place?, setPosition, shape?_forgetCurves, shape?_modifyShape]
  split
  · cases d.shape? i <;> rfl
  · rfl

section Scalar

variable [Scalar α]

theorem place?_land (d : Diagram α) (id : CableId) (t : Terminal) (i : ShapeId) :
    (d.land id t).place? i = d.place? i :=
  place?_modifyMagnet (d.modifyCable id _) t _ i

theorem place?_join (d : Diagram α) (s t : Terminal) (i : ShapeId) :
    (d.join s t).place? i = d.place? i := by
  rw [join_eq_land_start d s t Point.origin, place?_land, place?_start]

theorem shape?_shiftBy_of_ne (d : Diagram α) (p : Point α) (h : id ≠ i) :
    (d.shiftBy id p).shape? i = d.shape? i := by
  rw [shiftBy, shape?_forgetCurves, shape?_modifyShape, if_neg h]

theorem place?_shiftBy (d : Diagram α) (id : ShapeId) (p : Point α) (i : ShapeId) :
    (d.shiftBy id p).place? i =
      if id = i then (d.place? i).map fun x => (x.1, x.2 + p) else d.place? i := by
  simp only [place?, shiftBy, shape?_forgetCurves, shape?_modifyShape]
  split
  · cases d.shape? i <;> rfl
  · rfl

theorem place?_settle (d : Diagram α) (i : ShapeId) :
    d.settle.place? i = (d.place? i).map fun x => (x.1 + x.2, Point.origin) := by
  simp only [place?, shape?, settle, Arena.get?_map, Option.map_map]
  rfl

def centre? (d : Diagram α) (i : ShapeId) : Option (Point α) := (d.shape? i).map Shape.centre

theorem centre?_eq (d : Diagram α) (i : ShapeId) :
    d.centre? i = (d.place? i).map fun x => x.1 + x.2 := by
  rw [centre?, place?, Option.map_map]
  rfl

theorem centre?_congr (h : d'.place? i = d.place? i) : d'.centre? i = d.centre? i := by
  rw [centre?_eq, centre?_eq, h]

end Scalar

end Diagram

/-! ## Shifts without a sign -/

/-- Neither coordinate is negative zero. -/
def Point.Unsigned (p : Point Double) : Prop :=
  p.x ≠ Double.negativeZero ∧ p.y ≠ Double.negativeZero

namespace Point

variable {p q : Point Double}

theorem unsigned_origin : (origin : Point Double).Unsigned := by
  constructor <;> decide

theorem Unsigned.add_left (h : p.Unsigned) (q : Point Double) : (p + q).Unsigned :=
  ⟨fun hx => h.1 (Double.eq_negativeZero_of_add hx).1,
    fun hy => h.2 (Double.eq_negativeZero_of_add hy).1⟩

theorem Unsigned.add_right (h : q.Unsigned) (p : Point Double) : (p + q).Unsigned :=
  ⟨fun hx => h.1 (Double.eq_negativeZero_of_add hx).2,
    fun hy => h.2 (Double.eq_negativeZero_of_add hy).2⟩

theorem Unsigned.add_origin (h : p.Unsigned) : p + origin = p :=
  congr (congrArg Point.mk (Double.add_zero_of_ne h.1)) (Double.add_zero_of_ne h.2)

end Point

/-- A shape that has just been built is where it rests. -/
theorem Shape.Built.unsigned {s : Shape Double} (h : s.Built) : s.shift.Unsigned := by
  cases h <;> exact Point.unsigned_origin

namespace Diagram

open Running Edit

variable {d d' : Diagram Double} {β γ : Type}

/-- No shape is shifted by a negative zero. -/
def Unsigned (d : Diagram Double) : Prop := ∀ i x, d.place? i = some x → x.2.Unsigned

theorem Unsigned.of_place? (h : d.Unsigned) (hp : ∀ i x, d'.place? i = some x → d.place? i = some x) :
    d'.Unsigned :=
  fun i x hx => h i x (hp i x hx)

theorem Unsigned.congr (h : d.Unsigned) (hp : ∀ i, d'.place? i = d.place? i) : d'.Unsigned :=
  h.of_place? fun i _ hx => hp i ▸ hx

/-- Settling a shape leaves its centre where it is. -/
theorem centre?_settle (h : d.Unsigned) (i : ShapeId) : d.settle.centre? i = d.centre? i := by
  rw [centre?_eq, centre?_eq, place?_settle, Option.map_map]
  cases hx : d.place? i with
  | none => rfl
  | some x => exact congrArg some ((h i x hx).add_right x.1).add_origin

/-! ## Elementary changes -/

theorem unsigned_blank : (blank : Diagram Double).Unsigned := by
  intro i x hx
  simp [place?, shape?, blank] at hx

theorem Unsigned.placeShape (h : d.Unsigned) {s : Shape Double} (hs : s.shift.Unsigned) :
    (d.placeShape s).Unsigned := by
  intro i x hx
  rw [place?_placeShape] at hx
  split at hx
  · cases hx
    exact hs
  · exact h i x hx

theorem Unsigned.addShape (h : d.Unsigned) {s : Shape Double} (hs : s.shift.Unsigned) :
    (d.addShape s).Unsigned :=
  (h.placeShape hs).congr (place?_addShape d s)

theorem Unsigned.removeShape (h : d.Unsigned) (id : ShapeId) : (d.removeShape id).Unsigned := by
  refine h.of_place? fun i x hx => ?_
  rw [place?_removeShape] at hx
  split at hx
  · cases hx
  · exact hx

theorem Unsigned.setPosition (h : d.Unsigned) (id : ShapeId) (p : Point Double) :
    (d.setPosition id p).Unsigned := by
  intro i x hx
  rw [place?_setPosition] at hx
  split at hx
  · obtain ⟨y, hy, rfl⟩ := Option.map_eq_some_iff.1 hx
    exact h i y hy
  · exact h i x hx

theorem Unsigned.shiftBy (h : d.Unsigned) (id : ShapeId) (p : Point Double) :
    (d.shiftBy id p).Unsigned := by
  intro i x hx
  rw [place?_shiftBy] at hx
  split at hx
  · obtain ⟨y, hy, rfl⟩ := Option.map_eq_some_iff.1 hx
    exact (h i y hy).add_left p
  · exact h i x hx

theorem unsigned_settle (d : Diagram Double) : d.settle.Unsigned := by
  intro i x hx
  rw [place?_settle] at hx
  obtain ⟨y, -, rfl⟩ := Option.map_eq_some_iff.1 hx
  exact Point.unsigned_origin

/-! ## Histories -/

theorem stable_unsigned : Stable Unsigned where
  unplug h id c := h.congr (place?_unplug _ id c)
  removeShape h id := h.removeShape id
  start h s p := h.congr (place?_start _ s p)
  land h id t := h.congr (place?_land _ id t)
  moveEnd h _ _ := h
  relist h id _ _ := by
    refine h.of_place? fun i x hx => ?_
    simp only [place?, shape?, Arena.get?_remove] at hx ⊢
    split at hx
    · cases hx
    · exact hx

/-- The new step is shifted as the old one was. -/
theorem Unsigned.placeNext (h : d.Unsigned) {old : ShapeId} {previous : Shape Double}
    (hprevious : d.shape? old = some previous) (next : Shape Double) :
    (d.placeShape { next with position := previous.position, shift := previous.shift }).Unsigned := by
  refine h.placeShape (h old (previous.position, previous.shift) ?_)
  rw [place?, hprevious, Option.map_some]

theorem keeps_replaceStep (old : ShapeId) (next : Shape Double) :
    Keeps Unsigned (Edit.replaceStep old next) := fun _ hd =>
  stable_unsigned.replaceStep hd fun _ hprevious => hd.placeNext hprevious next

theorem Unsigned.run (h : d.Unsigned) {c : Change Double} (hc : c.Built) :
    (d.run c).2.Unsigned := by
  refine stable_unsigned.run h (fun s hadd => ?_) h.setPosition h.shiftBy (unsigned_settle d)
    fun _ next _ _ hprevious => h.placeNext hprevious next
  subst hadd
  exact h.addShape (Shape.Built.unsigned hc)

/-- No shape of a reachable diagram is shifted by a negative zero. -/
theorem Reachable.unsigned (h : d.Reachable) : d.Unsigned := by
  obtain ⟨changes, hc, rfl⟩ := h
  suffices hafter : ∀ d : Diagram Double, d.Unsigned → (d.after changes).Unsigned from
    hafter blank unsigned_blank
  induction changes with
  | nil => exact fun _ hd => hd
  | cons c cs ih =>
    intro d hd
    exact ih (fun c' hc' => hc c' (List.mem_cons_of_mem c hc')) _ (hd.run (hc c List.mem_cons_self))

end Diagram

end Patchbay
