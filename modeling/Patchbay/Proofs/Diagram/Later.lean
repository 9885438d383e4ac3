import Patchbay.Proofs.Diagram.Stable

/-!
# What is gone stays gone

A slot that has been emptied is never filled again, because new entries take new slots. So a
diagram is `Later` than another if it has all its slots and no entry in a slot that was empty there.
Every edit gives a later diagram, whether it goes through, is refused at once, or would be refused
half way.
-/

namespace Patchbay

namespace Arena

variable {β : Type} {a a' : Arena β}

/-- There are no fewer slots, and what was empty is empty. -/
structure Later (a a' : Arena β) : Prop where
  size_le : a.size ≤ a'.size
  gone : ∀ i < a.size, a.get? i = none → a'.get? i = none

theorem Later.refl (a : Arena β) : a.Later a := ⟨Nat.le_refl _, fun _ _ => id⟩

theorem Later.trans {a₁ a₂ a₃ : Arena β} (h : a₁.Later a₂) (h' : a₂.Later a₃) : a₁.Later a₃ where
  size_le := Nat.le_trans h.size_le h'.size_le
  gone i hi hn := h'.gone i (Nat.lt_of_lt_of_le hi h.size_le) (h.gone i hi hn)

theorem later_push (a : Arena β) (b : β) : a.Later (a.push b) where
  size_le := by simp
  gone i hi hn := by rw [get?_push, if_neg (Nat.ne_of_lt hi), hn]

theorem later_remove (a : Arena β) (i : Nat) : a.Later (a.remove i) where
  size_le := by simp
  gone j _ hn := by rw [get?_remove, hn, ite_self]

theorem later_modify (a : Arena β) (i : Nat) (f : β → β) : a.Later (a.modify i f) where
  size_le := by simp
  gone j _ hn := by rw [get?_modify, hn, Option.map_none, ite_self]

end Arena

namespace Diagram

variable {α : Type} {d d' : Diagram α}

/-- No shape and no cable that was gone is there again. -/
structure Later (d d' : Diagram α) : Prop where
  shapes : d.shapeSlots.Later d'.shapeSlots
  cables : d.cableSlots.Later d'.cableSlots

theorem Later.refl (d : Diagram α) : d.Later d := ⟨.refl _, .refl _⟩

theorem Later.trans {d₁ d₂ d₃ : Diagram α} (h : d₁.Later d₂) (h' : d₂.Later d₃) : d₁.Later d₃ :=
  ⟨h.shapes.trans h'.shapes, h.cables.trans h'.cables⟩

/-- What was there and is gone stays gone. -/
theorem Later.shape_gone {d₁ d₂ d₃ : Diagram α} (h : d₁.Later d₂) (h' : d₂.Later d₃) {id : ShapeId}
    (hthere : (d₁.shape? id).isSome) (hgone : d₂.shape? id = none) : d₃.shape? id = none := by
  obtain ⟨s, hs⟩ := Option.isSome_iff_exists.1 hthere
  have hlt := Nat.lt_of_lt_of_le (Arena.lt_size_of_get? hs) h.shapes.size_le
  exact h'.shapes.gone _ hlt hgone

theorem Later.cable_gone {d₁ d₂ d₃ : Diagram α} (h : d₁.Later d₂) (h' : d₂.Later d₃) {id : CableId}
    (hthere : (d₁.cable? id).isSome) (hgone : d₂.cable? id = none) : d₃.cable? id = none := by
  obtain ⟨c, hc⟩ := Option.isSome_iff_exists.1 hthere
  have hlt := Nat.lt_of_lt_of_le (Arena.lt_size_of_get? hc) h.cables.size_le
  exact h'.cables.gone _ hlt hgone

/-! ## Elementary changes -/

theorem Alike.later (h : Alike d d') : d.Later d' where
  shapes := by
    refine ⟨Nat.le_of_eq h.shapeSize.symm, fun i _ hn => ?_⟩
    have hb := h.body ⟨i⟩
    rw [body?_eq_none_iff.2 hn] at hb
    exact body?_eq_none_iff.1 hb
  cables := by
    refine ⟨Nat.le_of_eq h.cableSize.symm, fun i _ hn => ?_⟩
    have he := h.ends ⟨i⟩
    have hn' : d.ends? ⟨i⟩ = none := by simp [ends?, cable?, hn]
    rw [hn'] at he
    simpa [ends?, cable?] using he

theorem later_modifyMagnet (d : Diagram α) (t : Terminal) (f : Magnet α → Magnet α) :
    d.Later (d.modifyMagnet t f) := ⟨Arena.later_modify _ _ _, .refl _⟩

theorem later_modifyCable (d : Diagram α) (id : CableId) (f : Cable α → Cable α) :
    d.Later (d.modifyCable id f) := ⟨.refl _, Arena.later_modify _ _ _⟩

theorem later_placeShape (d : Diagram α) (s : Shape α) : d.Later (d.placeShape s) :=
  ⟨Arena.later_push _ _, .refl _⟩

theorem later_addShape (d : Diagram α) (s : Shape α) : d.Later (d.addShape s) := by
  constructor
  · simpa [addShape] using (later_placeShape d s).shapes
  · simpa [addShape] using (later_placeShape d s).cables

theorem later_removeShape (d : Diagram α) (id : ShapeId) : d.Later (d.removeShape id) := by
  unfold removeShape
  split
  · exact .refl d
  · exact ⟨by simpa using Arena.later_remove _ _, by simpa using .refl _⟩

theorem later_start (d : Diagram α) (s : Terminal) (p : Point α) : d.Later (d.start s p) :=
  ⟨Arena.later_modify _ _ _, Arena.later_push _ _⟩

theorem later_unplug (d : Diagram α) (id : CableId) (c : Cable α) : d.Later (d.unplug id c) := by
  have hdrop : d.Later (d.dropCable id) := ⟨.refl _, Arena.later_remove _ _⟩
  rw [unplug_eq]
  refine hdrop.trans ?_
  generalize d.dropCable id = d
  induction c.ends generalizing d with
  | nil => exact .refl d
  | cons t ts ih => exact (later_modifyMagnet d t _).trans (ih _)

variable [Scalar α]

theorem later_land (d : Diagram α) (id : CableId) (t : Terminal) : d.Later (d.land id t) :=
  ⟨Arena.later_modify _ _ _, Arena.later_modify _ _ _⟩

/-- What is later than a diagram is so also after an edit that neither places nor moves a shape. -/
theorem stable_later (d : Diagram α) : Stable d.Later where
  unplug h id c := h.trans (later_unplug _ id c)
  removeShape h id := h.trans (later_removeShape _ id)
  start h s p := h.trans (later_start _ s p)
  land h id t := h.trans (later_land _ id t)
  moveEnd h id _ := h.trans (later_modifyCable _ id _)
  relist h _ _ _ := h.trans ⟨Arena.later_remove _ _, .refl _⟩

end Diagram

end Patchbay
