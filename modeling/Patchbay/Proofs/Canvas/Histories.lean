import Patchbay.Canvas.Gesture
import Patchbay.Proofs.Canvas.Moves
import Patchbay.Proofs.Diagram.Refusals
import Patchbay.Proofs.Phases.Flow

/-!
# Histories of a canvas

What holds of every canvas that some actions lead to. Its diagram is sound, and the phases that it
keeps are right: there are none just when some step lacks a cable, and otherwise each step is in the
phase that is its depth (`InStep`). Some actions work the phases out again, which makes them right
whatever they were. The others change nothing that phases depend on.
-/

namespace Patchbay

namespace Canvas

open Diagram Running

variable {α β γ : Type} {c : Canvas α} {d : Diagram α}

/-! ## Running actions -/

def withDiagram (c : Canvas α) (d : Diagram α) : Canvas α := { c with diagram := d }

theorem run_attempt (e : Edit α β) (c : Canvas α) :
    (attempt e).run c = (.ok (e.run c.diagram).1, c.withDiagram (e.run c.diagram).2) := rfl

theorem run_edit (e : Edit α β) (c : Canvas α) :
    (edit e).run c = ((e.run c.diagram).1, c.withDiagram (e.run c.diagram).2) := by
  refine (run_bind_ok (run_attempt e c) _).trans ?_
  cases (e.run c.diagram).1 <;> rfl

theorem run_edit_ok {e : Edit α β} {b : β} (h : e.run c.diagram = (.ok b, d)) :
    (edit e).run c = (.ok b, c.withDiagram d) := by
  rw [run_edit, h]

variable [Scalar α]

/-! ## Reachable canvases -/

/-- A shape that comes with the action is as it was built. -/
def Gesture.Built : Gesture α → Prop
  | .addShape s | .replaceStep _ s => s.Built
  | _ => True

/-- Some actions lead to the canvas from one that was made for a reachable diagram. -/
def Reachable (c : Canvas α) : Prop :=
  ∃ settings d, d.Reachable ∧ ∃ gestures : List (Gesture α), (∀ g ∈ gestures, g.Built) ∧
    (ofDiagram settings d).after gestures = c

/-! ## Canvases in step -/

/-- The diagram is sound, and the phases are right for it but for their order. -/
structure InStep (c : Canvas α) : Prop where
  sound : c.diagram.Sound []
  phases_eq_none_iff : c.phases = none ↔ ∃ id ∈ c.diagram.steps, ¬ Phases.Cabled c.diagram id
  layered : ∀ p, c.phases = some p → Phases.Layered c.diagram p

theorem inStep_updatePhases (h : c.diagram.Sound []) : c.updatePhases.InStep where
  sound := h
  phases_eq_none_iff := by
    rcases Phases.compute_cases h with ⟨p, hp, hall⟩ | ⟨labels, herror, -, hmissing⟩
    · simpa [updatePhases, hp, Except.toOption] using hall
    · simpa [updatePhases, herror, Except.toOption] using hmissing
  layered p hp := by
    cases hcompute : Phases.compute c.diagram with
    | error e => simp [updatePhases, hcompute, Except.toOption] at hp
    | ok q =>
      simp only [updatePhases, hcompute, Except.toOption, Option.some.injEq] at hp
      exact hp ▸ Phases.layered_of_compute h hcompute

theorem InStep.sortPhases (h : c.InStep) : c.sortPhases.InStep where
  sound := h.sound
  phases_eq_none_iff := by
    refine Iff.trans ?_ h.phases_eq_none_iff
    exact Option.map_eq_none_iff
  layered p hp := by
    obtain ⟨q, hq, rfl⟩ := Option.map_eq_some_iff.1 hp
    split
    · exact (h.layered q hq).sortShared
    · exact h.layered q hq

/-- A change that leaves the flow alone needs no new phases. -/
theorem InStep.withDiagram (h : c.InStep) (hs : d.Sound []) (hf : c.diagram.SameFlow d) :
    (c.withDiagram d).InStep where
  sound := hs
  phases_eq_none_iff := by
    refine Iff.trans h.phases_eq_none_iff ?_
    change _ ↔ ∃ id ∈ d.steps, ¬ Phases.Cabled d id
    rw [hf.steps]
    exact exists_congr fun id => and_congr_right fun hid => not_congr (hf.cabled id hid).symm
  layered p hp := (h.layered p hp).flow hf

theorem InStep.alike (h : c.InStep) (ha : Alike c.diagram d) : (c.withDiagram d).InStep :=
  h.withDiagram (h.sound.alike ha) ha.sameFlow

theorem alike_resolve_settle (c : Canvas α) (id : ShapeId) :
    Alike c.diagram ((c.resolve id).1.settle).diagram :=
  (Collision.alike_resolve _ _ id c.diagram).trans (alike_settle _)

/-! ## Actions that keep a canvas in step -/

/-- Carried out, the action leaves a sound diagram. Refused, it leaves the canvas in step. -/
def Careful (x : Action α β) (c : Canvas α) : Prop :=
  match x.run c with
    | (.ok _, c') => c'.diagram.Sound []
    | (.error _, c') => c'.InStep

theorem careful_edit (h : c.InStep) {e : Edit α β} (hs : (e.run c.diagram).2.Sound [])
    (hw : e.WholeOrNot c.diagram) : Careful (edit e) c := by
  unfold Careful
  rw [run_edit]
  rcases hrun : e.run c.diagram with ⟨err | b, d'⟩
  · cases hw err d' hrun
    exact h
  · rw [hrun] at hs
    exact hs

/-- An action that works the phases out again in the end does so unless it is refused. -/
theorem run_thenUpdate (x : Action α β) (f : β → γ) (c : Canvas α) :
    ((x >>= fun b => modify updatePhases >>= fun _ => pure (f b)).run c).2 =
      match x.run c with
        | (.ok _, c') => c'.updatePhases
        | (.error _, c') => c' := by
  rw [run_bind]
  rcases x.run c with ⟨e | b, c'⟩ <;> rfl

theorem Careful.thenUpdate {x : Action α β} (h : Careful x c) (f : β → γ) :
    ((x >>= fun b => modify updatePhases >>= fun _ => pure (f b)).run c).2.InStep := by
  unfold Careful at h
  rw [run_thenUpdate]
  rcases hrun : x.run c with ⟨e | b, c'⟩
  · rw [hrun] at h
    exact h
  · rw [hrun] at h
    exact inStep_updatePhases h

/-! ## Actions and what they keep -/

omit [Scalar α] in
/-- An action that is an edit keeps what the edit keeps. -/
theorem keeps_attempt {P : Diagram α → Prop} {e : Edit α β} (h : Keeps P e) :
    Keeps (fun c => P c.diagram) (attempt e) := fun c hc => h c.diagram hc

omit [Scalar α] in
theorem keeps_edit {P : Diagram α → Prop} {e : Edit α β} (h : Keeps P e) :
    Keeps (fun c => P c.diagram) (edit e) := by
  intro c hc
  rw [run_edit]
  exact h c.diagram hc

theorem keeps_thenUpdate {P : Canvas α → Prop} (hP : ∀ c, P c → P c.updatePhases)
    {x : Action α β} (h : Keeps P x) (f : β → γ) :
    Keeps P (x >>= fun b => modify updatePhases >>= fun _ => pure (f b)) :=
  h.bind fun _ => (keeps_modify hP).bind fun _ => keeps_pure _

theorem keeps_landCable {P : Canvas α → Prop} {id : CableId} {dest : Terminal}
    (hattach : Keeps P (attempt (.attach id dest))) (hdelete : Keeps P (edit (.deleteCable id))) :
    Keeps P (landCable id dest) := by
  refine hattach.bind fun result => ?_
  cases result with
  | ok => exact keeps_pure _
  | error e => exact hdelete.bind fun _ => keeps_pure _

/-! ## Single actions -/

theorem InStep.ofDiagram (settings : Settings α) (h : d.Sound []) :
    (ofDiagram settings d).InStep :=
  inStep_updatePhases h

theorem run_addShape (s : Shape α) (c : Canvas α) :
    ((Canvas.addShape s).run c).2 =
      let (placed, report) := (c.withDiagram (c.diagram.addShape s)).resolve c.diagram.nextShape
      let settled := placed.settle
      if s.isStep then settled.updatePhases
      else if settled.movedStep c.diagram.nextShape report then settled.sortPhases else settled := by
  have hadd : (Edit.addShape s).run c.diagram =
      (.ok c.diagram.nextShape, c.diagram.addShape s) := rfl
  rw [Canvas.addShape, run_bind_ok (run_edit_ok hadd)]
  rfl

theorem InStep.addShape (h : c.InStep) {s : Shape α} (hs : s.Built) :
    ((Canvas.addShape s).run c).2.InStep := by
  have hsound : (c.diagram.addShape s).Sound [] := h.sound.addShape hs.conforms
  have halike := alike_resolve_settle (c.withDiagram (c.diagram.addShape s)) c.diagram.nextShape
  have hmoved := hsound.alike halike
  rw [run_addShape]
  by_cases hstep : s.isStep
  · simp only [hstep, if_true]
    exact inStep_updatePhases hmoved
  · have hflow := (sameFlow_addShape h.sound.toShapesListed hstep).trans halike.sameFlow
    have hin := h.withDiagram hmoved hflow
    simp only [hstep, Bool.false_eq_true, if_false]
    split
    · exact hin.sortPhases
    · exact hin

theorem run_moveShape (id : ShapeId) (delta : Point α) (c : Canvas α) :
    ((Canvas.moveShape id delta).run c).2 =
      match c.diagram.shape? id with
        | some _ =>
          let (moved, report) := (c.withDiagram (c.diagram.shiftBy id delta)).resolve id
          if moved.movedStep id report then moved.sortPhases else moved
        | none => c := by
  rw [Canvas.moveShape, run_bind, run_edit, Edit.run_shiftBy]
  cases c.diagram.shape? id <;> rfl

theorem InStep.moveShape (h : c.InStep) (id : ShapeId) (delta : Point α) :
    ((Canvas.moveShape id delta).run c).2.InStep := by
  rw [run_moveShape]
  split
  · have hshift := h.alike (alike_shiftBy c.diagram id delta)
    have hin := hshift.alike (Collision.alike_resolve c.surroundings c.settings.dragBias id
      (c.diagram.shiftBy id delta))
    dsimp only
    split
    · exact hin.sortPhases
    · exact hin
  · exact h

theorem InStep.finishDrag (h : c.InStep) : (Canvas.finishDrag.run c).2.InStep :=
  (h.alike (alike_settle c.diagram)).sortPhases

theorem InStep.delete (h : c.InStep) (item : Item) : ((Canvas.delete item).run c).2.InStep := by
  have hs : ((Edit.delete item).run c.diagram).2.Sound [] := by
    cases item with
    | shape id => exact h.sound.deleteShape id
    | cable id => exact h.sound.deleteCable id
  exact (careful_edit h hs (Edit.wholeOrNot_delete item)).thenUpdate fun _ => ()

theorem InStep.replaceStep (h : c.InStep) (old : ShapeId) {next : Shape α} (hnext : next.Built) :
    ((Canvas.replaceStep old next).run c).2.InStep :=
  (careful_edit h (h.sound.replaceStep old hnext)
    (Edit.wholeOrNot_replaceStep h.sound old hnext.conforms)).thenUpdate id

theorem InStep.startCable (h : c.InStep) (s : Terminal) :
    ((Canvas.startCable s).run c).2.InStep := by
  have hsound := h.sound.startCable s
  rw [Canvas.startCable, run_edit]
  change (c.withDiagram ((Edit.startCable s).run c.diagram).2).InStep
  refine h.withDiagram hsound ?_
  rw [Edit.run_startCable]
  split
  · exact .refl _
  · rename_i hside
    split
    · exact sameFlow_start (Decidable.not_not.1 hside) _
    · exact .refl _

theorem InStep.dragCable (h : c.InStep) (id : CableId) (p : Point α) :
    ((Canvas.dragCable id p).run c).2.InStep := by
  rw [Canvas.dragCable, run_edit, Edit.run_moveEnd]
  split
  · exact h.alike (alike_modifyCable c.diagram id fun _ => ⟨rfl, rfl⟩)
  · exact h

/-! ## Letting go of a cable -/

theorem careful_deleteCable (h : c.InStep) (id : CableId) :
    Careful (edit (Edit.deleteCable id)) c :=
  careful_edit h (h.sound.deleteCable id) (Edit.wholeOrNot_deleteCable id)

/-- What was said of the action holds of it with another result. -/
theorem Careful.map {x : Action α β} (h : Careful x c) (f : β → γ) :
    Careful (x >>= fun b => pure (f b)) c := by
  unfold Careful at h ⊢
  rw [run_bind]
  rcases hrun : x.run c with ⟨e | b, c'⟩
  · rw [hrun] at h
    exact h
  · rw [hrun] at h
    exact h

theorem careful_landCable (h : c.InStep) (id : CableId) (dest : Terminal) :
    Careful (landCable id dest) c := by
  have hsound := h.sound.attach id dest
  have hwhole := Edit.wholeOrNot_attach (d := c.diagram) id dest
  unfold Careful
  rw [landCable, run_bind_ok (run_attempt _ c)]
  rcases hrun : (Edit.attach id dest).run c.diagram with ⟨e | u, d'⟩
  · cases hwhole e d' hrun
    exact (careful_deleteCable h id).map fun _ => Drop.discarded
  · rw [hrun] at hsound
    exact hsound

/-- The output that is made for a cable. -/
def outputAt (d : Diagram α) (source : Terminal) (p : Point α) : Shape α :=
  .output (freeOutputLabel d) ((d.magnet? source).bind (·.datatype)) p

/-- An output is made for a cable, and goes again if the cable is refused. -/
theorem run_outputFor (id : CableId) (source : Terminal) (p : Point α) (c : Canvas α) :
    (outputFor id source p).run c =
      match (Edit.attach id ⟨c.diagram.nextShape, .input, 0⟩).run
          (c.diagram.addShape (outputAt c.diagram source p)) with
        | (.ok _, d) => (.ok (.created c.diagram.nextShape),
            ((c.withDiagram d).resolve c.diagram.nextShape).1.settle)
        | (.error e, _) => (.error e, c.withDiagram
            ((c.diagram.addShape (outputAt c.diagram source p)).removeShape
              c.diagram.nextShape)) := by
  have hadd : (Edit.addShape (outputAt c.diagram source p)).run c.diagram =
      (.ok c.diagram.nextShape, c.diagram.addShape (outputAt c.diagram source p)) := rfl
  rw [outputFor]
  refine (run_get_bind _ c).trans ?_
  refine (run_bind_ok (run_edit_ok hadd) _).trans ?_
  refine (run_bind_ok (run_attempt _ _) _).trans ?_
  have hwhole := Edit.wholeOrNot_attach (d := c.diagram.addShape (outputAt c.diagram source p)) id
    ⟨c.diagram.nextShape, .input, 0⟩
  simp only [withDiagram]
  rcases hrun : (Edit.attach id ⟨c.diagram.nextShape, .input, 0⟩).run
    (c.diagram.addShape (outputAt c.diagram source p)) with ⟨e | u, d'⟩
  · cases hwhole e d' hrun
    refine (run_bind_ok (run_edit_ok (run_deleteShape_addShape c.diagram _)) _).trans ?_
    rfl
  · rfl

theorem careful_outputFor (h : c.InStep) (id : CableId) (source : Terminal) (p : Point α) :
    Careful (outputFor id source p) c := by
  have hstep : ¬ (outputAt c.diagram source p).isStep := Bool.false_ne_true
  have hbuilt : (outputAt c.diagram source p).Built := .output _ _ p
  have hsound : (c.diagram.addShape (outputAt c.diagram source p)).Sound [] :=
    h.sound.addShape hbuilt.conforms
  have hflow := sameFlow_addShape h.sound.toShapesListed hstep
  have hattach := hsound.attach id ⟨c.diagram.nextShape, .input, 0⟩
  unfold Careful
  rw [run_outputFor]
  rcases hrun : (Edit.attach id ⟨c.diagram.nextShape, .input, 0⟩).run
    (c.diagram.addShape (outputAt c.diagram source p)) with ⟨e | u, d'⟩
  -- the output came and went, and since it is no step the phases are still right
  · have hfresh : (c.diagram.addShape (outputAt c.diagram source p)).has Shape.isStep
        c.diagram.nextShape = false := by
      simpa [has, shape?_addShape, Shape.mapMagnets, Shape.isStep] using hstep
    have hgone := hsound.deleteShape c.diagram.nextShape
    rw [run_deleteShape_addShape] at hgone
    exact h.withDiagram hgone (hflow.trans (sameFlow_removeShape hsound.toShapesListed hfresh))
  · rw [hrun] at hattach
    exact hattach.alike (alike_resolve_settle (c.withDiagram d') c.diagram.nextShape)

/-- A cable that is let go lands on a magnet, or an output is made for it, or it is deleted. The
phases are worked out again in each case. -/
theorem dropCable_cases {P : Canvas α → Prop} (id : CableId) (p : Point α) (hunknown : P c)
    (hland : ∀ dest, P ((landCable id dest >>= fun outcome =>
      modify updatePhases >>= fun _ => pure outcome).run c).2)
    (houtput : ∀ source, P ((outputFor id source p >>= fun outcome =>
      modify updatePhases >>= fun _ => pure outcome).run c).2)
    (hdelete : P ((edit (.deleteCable id) >>= fun _ =>
      modify updatePhases >>= fun _ => pure Drop.discarded).run c).2) :
    P ((Canvas.dropCable id p).run c).2 := by
  rw [Canvas.dropCable, run_bind, run_edit, Edit.run_requireCable]
  cases hk : c.diagram.cable? id with
  | none => exact hunknown
  | some k =>
    dsimp only
    rw [run_get_bind]
    split
    · exact hland _
    · split
      · exact houtput k.source
      · exact hdelete

theorem InStep.dropCable (h : c.InStep) (id : CableId) (p : Point α) :
    ((Canvas.dropCable id p).run c).2.InStep :=
  dropCable_cases id p h (fun dest => (careful_landCable h id dest).thenUpdate fun outcome => outcome)
    (fun source => (careful_outputFor h id source p).thenUpdate fun outcome => outcome)
    ((careful_deleteCable h id).thenUpdate fun _ => Drop.discarded)

/-! ## Layout -/

/-- A canvas is laid out and its phases are worked out again, unless there is no layout. -/
theorem run_tryLayOut (c : Canvas α) : (Canvas.tryLayOut.run c).2 =
    match Phases.compute c.diagram with
      | .ok phases =>
        match (Layout.auto c.surroundings phases).run c.diagram with
          | (.ok _, d) => (c.withDiagram d).updatePhases
          | (.error _, d) => c.withDiagram d
      | .error _ => c := by
  have hlaid : (Canvas.layOut.run c).2 = (Canvas.tryLayOut.run c).2 := by
    rw [Canvas.tryLayOut, run_get_bind]
    rcases Canvas.layOut.run c with ⟨_ | _, c'⟩ <;> rfl
  rw [← hlaid, Canvas.layOut, run_get_bind]
  cases Phases.compute c.diagram with
  | error e => rfl
  | ok phases =>
    dsimp only
    rcases (Layout.auto c.surroundings phases).run c.diagram with ⟨_ | _, d⟩ <;> rfl

theorem InStep.tryLayOut (h : c.InStep) : (Canvas.tryLayOut.run c).2.InStep := by
  rw [run_tryLayOut]
  split
  · rename_i phases _
    have halike := Layout.alike_auto c.surroundings phases c.diagram
    split
    · rename_i layers d hrun
      rw [hrun] at halike
      exact inStep_updatePhases (h.alike halike).sound
    · rename_i e d hrun
      rw [hrun] at halike
      exact h.alike halike
  · exact h

/-! ## Many actions -/

theorem run_snd (c : Canvas α) (g : Gesture α) : (c.run g).2 =
    match g with
      | .addShape s => ((Canvas.addShape s).run c).2
      | .moveShape id delta => ((Canvas.moveShape id delta).run c).2
      | .finishDrag => (Canvas.finishDrag.run c).2
      | .delete item => ((Canvas.delete item).run c).2
      | .replaceStep old next => ((Canvas.replaceStep old next).run c).2
      | .startCable s => ((Canvas.startCable s).run c).2
      | .dragCable id p => ((Canvas.dragCable id p).run c).2
      | .dropCable id p => ((Canvas.dropCable id p).run c).2
      | .updatePhases => c.updatePhases
      | .layOut => (Canvas.tryLayOut.run c).2 := by
  cases g with
  | updatePhases => rfl
  | layOut => rfl
  | addShape => exact run_map_snd _ _ c
  | moveShape => exact run_map_snd _ _ c
  | replaceStep => exact run_map_snd _ _ c
  | startCable => exact run_map_snd _ _ c
  | dropCable => exact run_map_snd _ _ c
  | _ => exact run_seqRight_pure_snd _ _ c

/-- Every action keeps a canvas in step, also when it is refused. -/
theorem InStep.run (h : c.InStep) {g : Gesture α} (hg : g.Built) : (c.run g).2.InStep := by
  rw [run_snd]
  cases g with
  | addShape s => exact h.addShape hg
  | moveShape id delta => exact h.moveShape id delta
  | finishDrag => exact h.finishDrag
  | delete item => exact h.delete item
  | replaceStep old next => exact h.replaceStep old hg
  | startCable s => exact h.startCable s
  | dragCable id p => exact h.dragCable id p
  | dropCable id p => exact h.dropCable id p
  | updatePhases => exact inStep_updatePhases h.sound
  | layOut => exact h.tryLayOut

theorem InStep.after (h : c.InStep) {gestures : List (Gesture α)}
    (hg : ∀ g ∈ gestures, g.Built) : (c.after gestures).InStep := by
  induction gestures generalizing c with
  | nil => exact h
  | cons g gs ih =>
    exact ih (h.run (hg g List.mem_cons_self)) fun g' hg' => hg g' (List.mem_cons_of_mem g hg')

theorem Reachable.inStep (h : c.Reachable) : c.InStep := by
  obtain ⟨settings, d, hd, gestures, hg, rfl⟩ := h
  exact (InStep.ofDiagram settings hd.sound).after hg

end Canvas

end Patchbay
