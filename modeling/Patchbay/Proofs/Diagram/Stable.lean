import Patchbay.Proofs.Diagram.Outcomes

/-!
# What edits keep

Edits are put together from a few elementary changes: cables are unplugged, started, landed and
moved, and shapes are removed. What all of these keep (`Stable`) is kept by every edit that neither
places nor moves a shape, whatever comes of it. Replacing a step places one shape, and keeps what is
kept by that.
-/

namespace Patchbay

namespace Diagram

open Edit Running

variable {α : Type} [Scalar α]

/-- What holds of a diagram holds also after a cable has come or gone or has another end, and after
a shape has gone, be it in the course of replacing a step. -/
structure Stable (P : Diagram α → Prop) : Prop where
  unplug : ∀ {d}, P d → ∀ id c, P (d.unplug id c)
  removeShape : ∀ {d}, P d → ∀ id, P (d.removeShape id)
  start : ∀ {d}, P d → ∀ s p, P (d.start s p)
  land : ∀ {d}, P d → ∀ id t, P (d.land id t)
  moveEnd : ∀ {d}, P d → ∀ id p,
    P (d.modifyCable id fun c => { c with freeEnd := p }.forgetCurve)
  relist : ∀ {d}, P d → ∀ id order steps,
    P { d with shapeSlots := d.shapeSlots.remove id, order := order, steps := steps }

namespace Stable

variable {P : Diagram α → Prop} {d : Diagram α}

theorem join (h : Stable P) (hd : P d) (s t : Terminal) : P (d.join s t) := by
  rw [join_eq_land_start d s t Point.origin]
  exact h.land (h.start hd s _) _ t

theorem cut (h : Stable P) (hd : P d) (id : CableId) (c : Cable α) : P (d.cut id c) := by
  unfold Diagram.cut
  split
  · exact h.removeShape (h.unplug hd id c) _
  · exact h.unplug hd id c

theorem cutIfThere (h : Stable P) (hd : P d) (id : CableId) : P (d.cutIfThere id) := by
  unfold Diagram.cutIfThere
  split
  · exact h.cut hd id _
  · exact hd

theorem detach (h : Stable P) (id : CableId) : Keeps P (detach id) := by
  intro d hd
  rw [run_detach]
  split
  · exact h.unplug hd id _
  · exact hd

theorem deleteCable (h : Stable P) (id : CableId) : Keeps P (deleteCable id) := by
  intro d hd
  rw [run_deleteCable]
  split
  · exact h.cut hd id _
  · exact hd

theorem deleteShape (h : Stable P) (id : ShapeId) : Keeps P (deleteShape id) := by
  intro d hd
  rw [run_deleteShape]
  split
  · exact h.removeShape (foldl_keeps (P := P) (fun _ c hd => h.cutIfThere hd c) _ hd) id
  · exact hd

theorem delete (h : Stable P) : ∀ item, Keeps P (Edit.delete item)
  | .shape id => h.deleteShape id
  | .cable id => h.deleteCable id

theorem connect (h : Stable P) (s t : Terminal) : Keeps P (connect s t) := by
  intro d hd
  rw [run_connect]
  split
  · exact hd
  · exact h.join hd s t

theorem startCable (h : Stable P) (s : Terminal) : Keeps P (startCable s) := by
  intro d hd
  rw [run_startCable]
  split
  · exact hd
  · split
    · exact h.start hd s _
    · exact hd

theorem keeps_moveEnd (h : Stable P) (id : CableId) (p : Point α) :
    Keeps P (Edit.moveEnd id p) := by
  intro d hd
  rw [run_moveEnd]
  split
  · exact h.moveEnd hd id p
  · exact hd

theorem attach (h : Stable P) (id : CableId) (t : Terminal) : Keeps P (attach id t) := by
  intro d hd
  rw [run_attach]
  split
  · exact hd
  · split
    · exact hd
    · split
      · exact hd
      · exact h.land hd id t

theorem carryInput (h : Stable P) (id : ShapeId) (c : CableId) :
    ∀ target, Keeps P (carryInput id c target)
  | none => h.deleteCable c
  | some _ => (h.detach c).bind fun _ => keeps_modify fun _ hd => h.join hd _ _

theorem carryOutput (h : Stable P) (id : ShapeId) (c : CableId) (target : Option Nat) :
    Keeps P (carryOutput id c target) := by
  refine keeps_get.bind fun d => ?_
  split
  · exact (h.detach c).bind fun _ => keeps_modify fun _ hd => h.join hd _ _
  · exact h.deleteCable c

/-- Replacing a step keeps what putting the new step into a slot keeps. -/
theorem replaceStep (h : Stable P) {old : ShapeId} {next : Shape α} (hd : P d)
    (hplace : ∀ previous, d.shape? old = some previous →
      P (d.placeShape { next with position := previous.position, shift := previous.shift })) :
    P ((Edit.replaceStep old next).run d).2 := by
  have hstart := run_requireShape old d
  cases hfound : d.shape? old with
  | none =>
    rw [hfound] at hstart
    rwa [Edit.replaceStep, run_bind_error hstart]
  | some previous =>
    rw [hfound] at hstart
    rw [Edit.replaceStep, run_bind_ok hstart]
    by_cases hprevious : previous.isStep
    · by_cases hnext : next.isStep
      · simp only [hprevious, hnext, if_true]
        rw [run_get_bind, run_bind_ok (run_modify _ _)]
        refine Keeps.bind ?_ (fun _ => ?_) _ (hplace previous hfound)
        · exact keeps_forM (fun _ => h.carryInput _ _ _) _
        refine (keeps_forM (fun _ => h.carryOutput _ _ _) _).bind fun _ => ?_
        refine Keeps.bind ?_ fun _ => keeps_get.bind fun _ => keeps_pure _
        exact keeps_modify fun d hd => h.relist hd _ _ _
      · simp only [hprevious, hnext, if_true]
        exact hd
    · simp only [hprevious]
      exact hd

end Stable

end Diagram

end Patchbay
