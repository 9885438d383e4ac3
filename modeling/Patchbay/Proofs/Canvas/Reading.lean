import Patchbay.Proofs.Canvas.Histories
import Patchbay.Proofs.Diagram.Places

/-!
# Reading order on a canvas

The steps of a phase are kept in the order in which they are read. They have to be sorted again when
a step has moved, and the canvas tells from the report of a collision whether one has. If the other
shape takes a share of each push, that report is complete, and so the phases of a reachable canvas
are in reading order at all times (`read_of_reachable`): an action works the phases out again, or
sorts them, or has left all steps where they were (`Unmoved`). Settling a shape that was placed counts
as the last, because it does not change the centre of any shape.

If the other shape takes no share, no shape is reported. At the edge of the canvas a step may then
be moved by a collision and left out of order (`not_read_edgeCanvas`).
-/

namespace Patchbay

namespace Phases

open Diagram

/-- The first step is read no later than the second. -/
def Reads (d : Diagram Double) (a b : ShapeId) : Prop :=
  ∃ p q, d.centre? a = some p ∧ d.centre? b = some q ∧ Isometric.readingOrder p q ≠ .gt

/-- The steps of each phase are in the order in which they are read. -/
def Read (d : Diagram Double) (p : Phases) : Prop :=
  ∀ layer ∈ p.layers, layer.Pairwise (Reads d)

variable {d d' : Diagram Double} {p : Phases} {layer : List ShapeId}

theorem pairwise_reads_sortLayer (hlive : ∀ id ∈ layer, (d.shape? id).isSome) :
    (sortLayer d layer).Pairwise (Reads d) := by
  have hmem : ∀ id ∈ sortLayer d layer, ∃ s, d.shape? id = some s := fun id hid =>
    Option.isSome_iff_exists.1 (hlive id ((sortLayer_perm d layer).mem_iff.1 hid))
  refine (pairwise_sortLayer hlive).imp_of_mem fun {a b} ha hb hab => ?_
  obtain ⟨s, hs⟩ := hmem a ha
  obtain ⟨t, ht⟩ := hmem b hb
  refine ⟨s.centre, t.centre, by rw [centre?, hs]; rfl, by rw [centre?, ht]; rfl, ?_⟩
  rw [MayPrecede, compareReading_of_live hs ht] at hab
  rcases hab with hlt | ⟨heq, -⟩
  · simp [hlt]
  · simp [heq]

theorem read_sortShared (hlive : ∀ layer ∈ p.layers, ∀ id ∈ layer, (d.shape? id).isSome) :
    Read d (sortShared d p) := by
  intro layer hlayer
  rw [layers_sortShared] at hlayer
  obtain ⟨l, hl, rfl⟩ := List.mem_map.1 hlayer
  exact pairwise_reads_sortLayer (hlive l hl)

/-- Phases of single steps are in order anyhow. -/
theorem read_of_not_isAmbiguous (h : p.isAmbiguous = false) : Read d p := by
  intro layer hlayer
  have hlen : ¬ 1 < layer.length := by simpa using (List.any_eq_false.1 h) layer hlayer
  match layer with
  | [] => exact .nil
  | [x] => exact List.pairwise_singleton _ x
  | x :: y :: rest => simp at hlen

theorem Layered.isSome_shape? (h : Layered d p) (hs : d.Sound []) :
    ∀ layer ∈ p.layers, ∀ id ∈ layer, (d.shape? id).isSome := fun layer hlayer _ hid =>
  isSome_shape?_of_mem_steps hs (h.perm.mem_iff.1 (List.mem_flatten.2 ⟨layer, hlayer, hid⟩))

theorem Read.congr (h : Read d p) (hc : ∀ i ∈ p.flatten, d'.centre? i = d.centre? i) :
    Read d' p := by
  intro layer hlayer
  have hmem : ∀ i ∈ layer, i ∈ p.flatten := fun i hi => List.mem_flatten.2 ⟨layer, hlayer, hi⟩
  refine (h layer hlayer).imp_of_mem fun {a b} ha hb ⟨x, y, hx, hy, hxy⟩ => ⟨x, y, ?_, ?_, hxy⟩
  · rw [hc a (hmem a ha), hx]
  · rw [hc b (hmem b hb), hy]

end Phases

namespace Canvas

open Diagram Running

variable {c : Canvas Double} {d : Diagram Double} {β γ : Type}

/-! ## Phases in reading order -/

/-- The steps of each phase are in the order in which they are read. -/
def Read (c : Canvas Double) : Prop := ∀ p, c.phases = some p → Phases.Read c.diagram p

theorem read_updatePhases (h : c.diagram.Sound []) : c.updatePhases.Read := by
  intro p hp
  cases hcompute : Phases.compute c.diagram with
  | error e => simp [updatePhases, hcompute, Except.toOption] at hp
  | ok q =>
    simp only [updatePhases, hcompute, Except.toOption, Option.some.injEq] at hp
    subst hp
    obtain ⟨layers, hformed, rfl⟩ := Phases.formed_of_compute hcompute
    refine Phases.read_sortShared fun layer hlayer id hid => ?_
    exact Phases.isSome_shape?_of_mem_steps h ((hformed.sublist layer hlayer).mem hid)

theorem InStep.read_sortPhases (h : c.InStep) : c.sortPhases.Read := by
  intro p hp
  obtain ⟨q, hq, rfl⟩ := Option.map_eq_some_iff.1 hp
  split
  · exact Phases.read_sortShared ((h.layered q hq).isSome_shape? h.sound)
  · exact Phases.read_of_not_isAmbiguous (Bool.not_eq_true _ ▸ ‹¬ q.isAmbiguous›)

/-- All steps are where they were. -/
def Unmoved (d d' : Diagram Double) : Prop := ∀ i ∈ d.steps, d'.centre? i = d.centre? i

theorem Read.unmoved (hr : c.Read) (h : c.InStep) (hd : Unmoved c.diagram d) :
    (c.withDiagram d).Read := fun p hp =>
  (hr p hp).congr fun i hi => hd i ((h.layered p hp).perm.mem_iff.1 hi)

theorem unmoved_of_place? (h : ∀ i, d.place? i = c.diagram.place? i) : Unmoved c.diagram d :=
  fun i _ => centre?_congr (h i)

theorem unmoved_addShape (h : d.ShapesListed []) (s : Shape Double) :
    Unmoved d (d.addShape s) := by
  intro i hi
  refine centre?_congr ?_
  rw [place?_addShape, place?_placeShape, if_neg (h.ne_nextShape hi)]

/-! ## Collisions -/

/-- A collision that is not said to move a step moves none. -/
theorem unmoved_resolve (hs : c.diagram.Sound []) (hbias : 0 < c.settings.dragBias) {id : ShapeId}
    (h : ∀ i ∈ id :: (c.resolve id).2.displaced, c.diagram.has Shape.isStep i = false) :
    Unmoved c.diagram (c.resolve id).1.diagram := by
  intro i hi
  refine centre?_congr (place?_congr (Collision.shape?_resolve hbias c.diagram fun hmoved => ?_))
  rw [hs.mem_steps, h i hmoved] at hi
  cases hi

/-- Steps are still steps when they have moved. -/
theorem movedStep_eq_false_iff {ids : Collision.Report} {id : ShapeId}
    (ha : Alike d c.diagram) : c.movedStep id ids = false ↔
      ∀ i ∈ id :: ids.displaced, d.has Shape.isStep i = false := by
  rw [movedStep, List.any_eq_false]
  refine forall_congr' fun i => forall_congr' fun _ => ?_
  rw [Bool.not_eq_true]
  exact iff_of_eq (congrArg (· = false) (has_congr bodily_isStep (ha.body i)))

/-! ## Shifts -/

def Unsigned (c : Canvas Double) : Prop := c.diagram.Unsigned

theorem keeps_unsigned_thenUpdate {x : Action Double β} (h : Keeps Unsigned x) (f : β → γ) :
    Keeps Unsigned (x >>= fun b => modify updatePhases >>= fun _ => pure (f b)) :=
  keeps_thenUpdate (fun _ hc => hc) h f

theorem unsigned_resolve (h : c.Unsigned) (id : ShapeId) : (c.resolve id).1.Unsigned :=
  Collision.resolve_keeps (fun _ id delta hd => hd.shiftBy id delta) h

theorem unsigned_addShape (c : Canvas Double) (s : Shape Double) :
    ((Canvas.addShape s).run c).2.Unsigned := by
  have hsettled : Unsigned ((c.withDiagram (c.diagram.addShape s)).resolve
      c.diagram.nextShape).1.settle := unsigned_settle _
  rw [run_addShape]
  dsimp only
  split
  · exact hsettled
  · split <;> exact hsettled

theorem unsigned_moveShape (h : c.Unsigned) (id : ShapeId) (delta : Point Double) :
    ((Canvas.moveShape id delta).run c).2.Unsigned := by
  rw [run_moveShape]
  split
  · have hmoved := unsigned_resolve (c := c.withDiagram (c.diagram.shiftBy id delta))
      (Diagram.Unsigned.shiftBy h id delta) id
    dsimp only
    split <;> exact hmoved
  · exact h

theorem unsigned_outputFor (h : c.Unsigned) (id : CableId) (source : Terminal)
    (p : Point Double) : ((outputFor id source p).run c).2.Unsigned := by
  have hadded : (c.diagram.addShape (outputAt c.diagram source p)).Unsigned :=
    Diagram.Unsigned.addShape h (Shape.Built.output _ _ p).unsigned
  rw [run_outputFor]
  split
  · exact unsigned_settle _
  · exact hadded.removeShape _

theorem unsigned_dropCable (h : c.Unsigned) (id : CableId) (p : Point Double) :
    ((Canvas.dropCable id p).run c).2.Unsigned := by
  refine dropCable_cases id p h (fun dest => ?_) (fun source => ?_) ?_
  · exact keeps_unsigned_thenUpdate (keeps_landCable (keeps_attempt (stable_unsigned.attach id dest))
      (keeps_edit (stable_unsigned.deleteCable id))) (fun outcome => outcome) c h
  · exact keeps_unsigned_thenUpdate (fun c hc => unsigned_outputFor hc id source p)
      (fun outcome => outcome) c h
  · exact keeps_unsigned_thenUpdate (keeps_edit (stable_unsigned.deleteCable id))
      (fun _ => Drop.discarded) c h

theorem unsigned_tryLayOut (h : c.Unsigned) : (Canvas.tryLayOut.run c).2.Unsigned := by
  rw [run_tryLayOut]
  split
  · rename_i phases _
    have hlaid : Diagram.Unsigned ((Layout.auto c.surroundings phases).run c.diagram).2 :=
      Layout.auto_keeps (fun _ id delta hd => hd.shiftBy id delta)
        (fun _ id p hd => hd.setPosition id p) (fun d _ => unsigned_settle d) _ _ h
    revert hlaid
    rcases (Layout.auto c.surroundings phases).run c.diagram with ⟨_ | _, d⟩
    · exact id
    · exact id
  · exact h

theorem Unsigned.run (h : c.Unsigned) (g : Gesture Double) : (c.run g).2.Unsigned := by
  rw [run_snd]
  cases g with
  | addShape s => exact unsigned_addShape c s
  | moveShape id delta => exact unsigned_moveShape h id delta
  | finishDrag => exact unsigned_settle _
  | delete item =>
    exact keeps_unsigned_thenUpdate (keeps_edit (stable_unsigned.delete item)) (fun _ => ()) c h
  | replaceStep old next =>
    exact keeps_unsigned_thenUpdate (keeps_edit (keeps_replaceStep old next)) id c h
  | startCable s => exact keeps_edit (stable_unsigned.startCable s) c h
  | dragCable id p => exact keeps_edit (stable_unsigned.keeps_moveEnd id p) c h
  | dropCable id p => exact unsigned_dropCable h id p
  | updatePhases => exact h
  | layOut => exact unsigned_tryLayOut h

/-! ## Refused actions -/

/-- Refused, the action leaves the phases in reading order. -/
def Orderly (x : Action Double β) (c : Canvas Double) : Prop :=
  ∀ e c', x.run c = (.error e, c') → c'.Read

theorem orderly_edit (hr : c.Read) {e : Edit Double β} (hw : e.WholeOrNot c.diagram) :
    Orderly (edit e) c := by
  intro err c' hrun
  rw [run_edit] at hrun
  rcases he : e.run c.diagram with ⟨err' | b, d'⟩
  · rw [he] at hrun
    cases hw err' d' he
    cases hrun
    exact hr
  · rw [he] at hrun
    cases hrun

/-- An action that works the phases out again in the end leaves them in reading order. -/
theorem Careful.read_thenUpdate {x : Action Double β} (h : Careful x c) (ho : Orderly x c)
    (f : β → γ) :
    ((x >>= fun b => modify updatePhases >>= fun _ => pure (f b)).run c).2.Read := by
  unfold Careful at h
  rw [run_thenUpdate]
  rcases hrun : x.run c with ⟨e | b, c'⟩
  · exact ho e c' hrun
  · rw [hrun] at h
    exact read_updatePhases h

/-- What was said of the action holds of it with another result. -/
theorem Orderly.map {x : Action Double β} (h : Orderly x c) (f : β → γ) :
    Orderly (x >>= fun b => pure (f b)) c := by
  intro e c' hrun
  rw [run_bind] at hrun
  rcases hx : x.run c with ⟨e' | b, c₁⟩
  · rw [hx] at hrun
    cases hrun
    exact h e c' hx
  · rw [hx] at hrun
    cases hrun

theorem orderly_landCable (hr : c.Read) (id : CableId) (dest : Terminal) :
    Orderly (landCable id dest) c := by
  intro e c' hrun
  rw [landCable, run_bind_ok (run_attempt _ c)] at hrun
  rcases hattach : (Edit.attach id dest).run c.diagram with ⟨err | u, d'⟩
  · cases Edit.wholeOrNot_attach id dest err d' hattach
    rw [hattach] at hrun
    have hdelete := orderly_edit hr (Edit.wholeOrNot_deleteCable id)
    exact hdelete.map (fun _ => Drop.discarded) e c' hrun
  · rw [hattach] at hrun
    cases hrun

theorem orderly_outputFor (h : c.InStep) (hr : c.Read) (id : CableId) (source : Terminal)
    (p : Point Double) : Orderly (outputFor id source p) c := by
  intro e c' hrun
  rw [run_outputFor] at hrun
  split at hrun
  · cases hrun
  · cases hrun
    refine hr.unmoved h fun i hi => centre?_congr ?_
    have hne := h.sound.toShapesListed.ne_nextShape hi
    rw [place?_removeShape, if_neg hne.symm, place?_addShape, place?_placeShape, if_neg hne]

/-! ## Single actions -/

theorem Read.addShape (hr : c.Read) (h : c.InStep) (hu : c.Unsigned)
    (hbias : 0 < c.settings.dragBias) {s : Shape Double} (hs : s.Built) :
    ((Canvas.addShape s).run c).2.Read := by
  let placed := c.withDiagram (c.diagram.addShape s)
  let moved := (placed.resolve c.diagram.nextShape).1
  have hsound : placed.diagram.Sound [] := h.sound.addShape hs.conforms
  have halike : Alike placed.diagram moved.settle.diagram :=
    alike_resolve_settle placed c.diagram.nextShape
  have hmoved : moved.settle.diagram.Sound [] := hsound.alike halike
  rw [run_addShape]
  by_cases hstep : s.isStep
  · simp only [hstep, if_true]
    exact read_updatePhases hmoved
  simp only [hstep, Bool.false_eq_true, if_false]
  have hin : moved.settle.InStep :=
    h.withDiagram hmoved ((sameFlow_addShape h.sound.toShapesListed hstep).trans halike.sameFlow)
  split
  · exact hin.read_sortPhases
  · rename_i hnot
    have hstill := (movedStep_eq_false_iff halike).1 (Bool.not_eq_true _ ▸ hnot)
    have hplaced : placed.Unsigned := Diagram.Unsigned.addShape hu hs.unsigned
    have hu' : moved.Unsigned := unsigned_resolve hplaced c.diagram.nextShape
    refine hr.unmoved h fun i hi => ?_
    have hi' : i ∈ (c.diagram.addShape s).steps := by
      rw [steps_addShape]
      exact List.mem_append_left _ hi
    calc moved.settle.diagram.centre? i = moved.diagram.centre? i := centre?_settle hu' i
      _ = placed.diagram.centre? i := unmoved_resolve hsound hbias hstill i hi'
      _ = c.diagram.centre? i := unmoved_addShape h.sound.toShapesListed s i hi

theorem Read.moveShape (hr : c.Read) (h : c.InStep) (hbias : 0 < c.settings.dragBias)
    (id : ShapeId) (delta : Point Double) : ((Canvas.moveShape id delta).run c).2.Read := by
  let shifted := c.withDiagram (c.diagram.shiftBy id delta)
  have hshift : Alike c.diagram shifted.diagram := alike_shiftBy c.diagram id delta
  have hmove : Alike shifted.diagram (shifted.resolve id).1.diagram :=
    Collision.alike_resolve _ _ id shifted.diagram
  have hin : (shifted.resolve id).1.InStep := h.alike (hshift.trans hmove)
  rw [run_moveShape]
  split
  · dsimp only
    split
    · exact hin.read_sortPhases
    · rename_i hnot
      have hstill := (movedStep_eq_false_iff hmove).1 (Bool.not_eq_true _ ▸ hnot)
      have hid : c.diagram.has Shape.isStep id = false := by
        rw [← has_congr bodily_isStep (hshift.body id)]
        exact hstill id List.mem_cons_self
      refine hr.unmoved h fun i hi => ?_
      have hi' : i ∈ shifted.diagram.steps := by rwa [hshift.lists]
      have hne : id ≠ i := by
        rintro rfl
        rw [h.sound.mem_steps, hid] at hi
        cases hi
      calc (shifted.resolve id).1.diagram.centre? i = shifted.diagram.centre? i :=
            unmoved_resolve (h.alike hshift).sound hbias hstill i hi'
        _ = c.diagram.centre? i :=
            centre?_congr (place?_congr (shape?_shiftBy_of_ne c.diagram delta hne))
  · exact hr

theorem Read.startCable (hr : c.Read) (h : c.InStep) (s : Terminal) :
    ((Canvas.startCable s).run c).2.Read := by
  rw [Canvas.startCable, run_edit]
  refine hr.unmoved h (unmoved_of_place? fun i => ?_)
  rw [Edit.run_startCable]
  split
  · rfl
  · split
    · exact place?_start c.diagram s _ i
    · rfl

theorem Read.dragCable (hr : c.Read) (h : c.InStep) (id : CableId) (p : Point Double) :
    ((Canvas.dragCable id p).run c).2.Read := by
  rw [Canvas.dragCable, run_edit]
  refine hr.unmoved h (unmoved_of_place? fun i => ?_)
  rw [Edit.run_moveEnd]
  split <;> rfl

theorem Read.dropCable (hr : c.Read) (h : c.InStep) (id : CableId) (p : Point Double) :
    ((Canvas.dropCable id p).run c).2.Read := by
  refine dropCable_cases id p hr (fun dest => ?_) (fun source => ?_) ?_
  · exact (careful_landCable h id dest).read_thenUpdate (orderly_landCable hr id dest)
      fun outcome => outcome
  · exact (careful_outputFor h id source p).read_thenUpdate (orderly_outputFor h hr id source p)
      fun outcome => outcome
  · exact (careful_deleteCable h id).read_thenUpdate
      (orderly_edit hr (Edit.wholeOrNot_deleteCable id)) fun _ => Drop.discarded

theorem Read.delete (hr : c.Read) (h : c.InStep) (item : Item) :
    ((Canvas.delete item).run c).2.Read := by
  have hs : ((Edit.delete item).run c.diagram).2.Sound [] := by
    cases item with
    | shape id => exact h.sound.deleteShape id
    | cable id => exact h.sound.deleteCable id
  exact (careful_edit h hs (Edit.wholeOrNot_delete item)).read_thenUpdate
    (orderly_edit hr (Edit.wholeOrNot_delete item)) fun _ => ()

theorem Read.replaceStep (hr : c.Read) (h : c.InStep) (old : ShapeId) {next : Shape Double}
    (hnext : next.Built) : ((Canvas.replaceStep old next).run c).2.Read := by
  have hw := Edit.wholeOrNot_replaceStep h.sound old hnext.conforms
  exact (careful_edit h (h.sound.replaceStep old hnext) hw).read_thenUpdate
    (orderly_edit hr hw) id

theorem Read.tryLayOut (hr : c.Read) (h : c.InStep) : (Canvas.tryLayOut.run c).2.Read := by
  rw [run_tryLayOut]
  split
  · rename_i phases _
    have halike := Layout.alike_auto c.surroundings phases c.diagram
    split
    · rename_i layers d hrun
      rw [hrun] at halike
      exact read_updatePhases (h.alike halike).sound
    · rename_i e d hrun
      cases Layout.run_auto_error hrun
      exact hr
  · exact hr

/-- Every action leaves the phases in reading order, also when it is refused. -/
theorem Read.run (hr : c.Read) (h : c.InStep) (hu : c.Unsigned)
    (hbias : 0 < c.settings.dragBias) {g : Gesture Double} (hg : g.Built) : (c.run g).2.Read := by
  rw [run_snd]
  cases g with
  | addShape s => exact hr.addShape h hu hbias hg
  | moveShape id delta => exact hr.moveShape h hbias id delta
  | finishDrag => exact (h.alike (alike_settle c.diagram)).read_sortPhases
  | delete item => exact hr.delete h item
  | replaceStep old next => exact hr.replaceStep h old hg
  | startCable s => exact hr.startCable h s
  | dragCable id p => exact hr.dragCable h id p
  | dropCable id p => exact hr.dropCable h id p
  | updatePhases => exact read_updatePhases h.sound
  | layOut => exact hr.tryLayOut h

/-! ## Surroundings -/

theorem keeps_surroundings_edit {around : Surroundings Double} (e : Edit Double β) :
    Keeps (·.surroundings = around) (edit e) := by
  intro c hc
  rw [run_edit]
  exact hc

theorem keeps_surroundings_thenUpdate {around : Surroundings Double} {x : Action Double β}
    (h : Keeps (·.surroundings = around) x) (f : β → γ) :
    Keeps (·.surroundings = around) (x >>= fun b => modify updatePhases >>= fun _ => pure (f b)) :=
  keeps_thenUpdate (fun _ hc => hc) h f

theorem surroundings_addShape (c : Canvas Double) (s : Shape Double) :
    ((Canvas.addShape s).run c).2.surroundings = c.surroundings := by
  rw [run_addShape]
  dsimp only
  split
  · rfl
  · split <;> rfl

theorem surroundings_moveShape (c : Canvas Double) (id : ShapeId) (delta : Point Double) :
    ((Canvas.moveShape id delta).run c).2.surroundings = c.surroundings := by
  rw [run_moveShape]
  split
  · dsimp only
    split <;> rfl
  · rfl

theorem surroundings_dropCable (c : Canvas Double) (id : CableId) (p : Point Double) :
    ((Canvas.dropCable id p).run c).2.surroundings = c.surroundings := by
  refine dropCable_cases (P := fun c' => c'.surroundings = c.surroundings) id p rfl
    (fun dest => ?_) (fun source => ?_) ?_
  · exact keeps_surroundings_thenUpdate (keeps_landCable (fun _ hc => hc) (keeps_surroundings_edit _))
      (fun outcome => outcome) c rfl
  · refine keeps_surroundings_thenUpdate (fun c' hc => ?_) (fun outcome => outcome) c rfl
    rw [run_outputFor]
    split <;> exact hc
  · exact keeps_surroundings_thenUpdate (keeps_surroundings_edit _) (fun _ => Drop.discarded) c rfl

theorem surroundings_tryLayOut (c : Canvas Double) :
    (Canvas.tryLayOut.run c).2.surroundings = c.surroundings := by
  rw [run_tryLayOut]
  split
  · split <;> rfl
  · rfl

/-- No action changes the settings or the zone. -/
theorem surroundings_run (c : Canvas Double) (g : Gesture Double) :
    (c.run g).2.surroundings = c.surroundings := by
  rw [run_snd]
  cases g with
  | addShape s => exact surroundings_addShape c s
  | moveShape id delta => exact surroundings_moveShape c id delta
  | finishDrag => rfl
  | delete item => exact keeps_surroundings_thenUpdate (keeps_surroundings_edit _) (fun _ => ()) c rfl
  | replaceStep old next => exact keeps_surroundings_thenUpdate (keeps_surroundings_edit _) id c rfl
  | startCable s => exact keeps_surroundings_edit _ c rfl
  | dragCable id p => exact keeps_surroundings_edit _ c rfl
  | dropCable id p => exact surroundings_dropCable c id p
  | updatePhases => rfl
  | layOut => exact surroundings_tryLayOut c

theorem settings_run (c : Canvas Double) (g : Gesture Double) :
    (c.run g).2.settings = c.settings :=
  congrArg Surroundings.settings (surroundings_run c g)

/-! ## Histories -/

/-- The other shape takes a share of each push, and then the phases stay in reading order. -/
structure InOrder (c : Canvas Double) : Prop where
  inStep : c.InStep
  unsigned : c.Unsigned
  bias : 0 < c.settings.dragBias
  read : c.Read

theorem InOrder.run (h : c.InOrder) {g : Gesture Double} (hg : g.Built) :
    (c.run g).2.InOrder where
  inStep := h.inStep.run hg
  unsigned := h.unsigned.run g
  bias := (settings_run c g).symm ▸ h.bias
  read := h.read.run h.inStep h.unsigned h.bias hg

theorem surroundings_after (c : Canvas Double) (gestures : List (Gesture Double)) :
    (c.after gestures).surroundings = c.surroundings := by
  induction gestures generalizing c with
  | nil => rfl
  | cons g gs ih => exact (ih _).trans (surroundings_run c g)

theorem settings_after (c : Canvas Double) (gestures : List (Gesture Double)) :
    (c.after gestures).settings = c.settings :=
  congrArg Surroundings.settings (surroundings_after c gestures)

theorem InOrder.after (h : c.InOrder) {gestures : List (Gesture Double)}
    (hg : ∀ g ∈ gestures, g.Built) : (c.after gestures).InOrder := by
  induction gestures generalizing c with
  | nil => exact h
  | cons g gs ih =>
    exact ih (h.run (hg g List.mem_cons_self)) fun g' hg' => hg g' (List.mem_cons_of_mem g hg')

/-- If the other shape takes a share of each push, each phase of a reachable canvas is in the order
in which its steps are read where they are now. -/
theorem read_of_reachable (h : c.Reachable) (hbias : 0 < c.settings.dragBias) : c.Read := by
  obtain ⟨settings, d, hd, gestures, hg, rfl⟩ := h
  rw [settings_after] at hbias
  have hstart : (ofDiagram settings d).InOrder :=
    { inStep := .ofDiagram settings hd.sound
      unsigned := hd.unsigned
      bias := hbias
      read := read_updatePhases hd.sound }
  exact (hstart.after hg).read

/-- Two steps, and an input at the left edge of the canvas that overlaps the first one. -/
def edgeDiagram : Diagram Double :=
  Diagram.blank.after
    [.addShape (.step "a" [] [⟨"y", .none⟩] ⟨(78 : Nat), (300 : Nat)⟩),
     .addShape (.step "b" [] [⟨"y", .none⟩] ⟨(300 : Nat), (173 : Nat)⟩),
     .addShape (.rawInput "r" ⟨(20 : Nat), (300 : Nat)⟩)]

/-- The input is dragged, and pushed apart from the step that it overlaps. -/
def edgeCanvas (settings : Settings Double) : Canvas Double :=
  (ofDiagram settings edgeDiagram).after [.moveShape ⟨2⟩ Point.origin]

theorem reachable_edgeCanvas (settings : Settings Double) : (edgeCanvas settings).Reachable := by
  refine ⟨settings, _, ⟨_, ?_, rfl⟩, _, ?_, rfl⟩
  · simp [Change.Built, Shape.Built.step, Shape.Built.rawInput]
  · simp [Gesture.Built]

theorem read_edgeCanvas :
    ((edgeCanvas .standard).Reachable ∧ 0 < (edgeCanvas .standard).settings.dragBias ∧
      (edgeCanvas .standard).phases = some ⟨[[⟨1⟩, ⟨0⟩]]⟩) ∧
    [⟨1⟩, ⟨0⟩].Pairwise (Phases.Reads (edgeCanvas .standard).diagram) := by
  have hreach := reachable_edgeCanvas .standard
  have hbias : 0 < (edgeCanvas .standard).settings.dragBias := by
    rw [edgeCanvas, settings_after]
    decide +kernel
  have hphases : (edgeCanvas .standard).phases = some ⟨[[⟨1⟩, ⟨0⟩]]⟩ := by decide +kernel
  exact ⟨⟨hreach, hbias, hphases⟩,
    read_of_reachable hreach hbias _ hphases _ (List.mem_singleton_self _)⟩

/-- The standard settings, but the other shape takes no share of a push. -/
def noShare : Settings Double := { Settings.standard with dragBias := 0 }

/-- Without a share, the edge of the canvas makes the first step move and no report tells of it. -/
theorem not_read_edgeCanvas :
    (noShare.validate = .ok () ∧ (edgeCanvas noShare).Reachable ∧
      (edgeCanvas noShare).phases = some ⟨[[⟨0⟩, ⟨1⟩]]⟩) ∧ ¬ (edgeCanvas noShare).Read := by
  obtain ⟨hphases, horder⟩ : (edgeCanvas noShare).phases = some ⟨[[⟨0⟩, ⟨1⟩]]⟩ ∧
      ((edgeCanvas noShare).diagram.centre? ⟨0⟩).bind (fun p =>
        ((edgeCanvas noShare).diagram.centre? ⟨1⟩).map (Isometric.readingOrder p)) = some .gt := by
    decide +kernel
  refine ⟨⟨by decide +kernel, reachable_edgeCanvas noShare, hphases⟩, fun hread => ?_⟩
  have hpair := hread _ hphases _ (List.mem_singleton_self _)
  obtain ⟨p, q, hp, hq, hpq⟩ := (List.pairwise_cons.1 hpair).1 ⟨1⟩ List.mem_cons_self
  rw [hp, hq] at horder
  exact hpq (Option.some.inj horder)

end Canvas

end Patchbay
