import Patchbay.Proofs.Diagram.Histories

/-!
# Refused changes

A change is made as a whole or not at all. Why it is refused can be told from the diagram before it
(`Change.fault?`): something that it names is not there, or is not of the kind that it needs. If
there is such a fault the change is refused for it and the diagram stays as it was, and if there is
none the change goes through (`refused_iff_of_reachable`).

Deleting a shape and replacing a step are made of many edits, each of which could be refused. A
shape is deleted without a refusal whatever the diagram is, because only cables that are still there
are cut. To replace a step without one the diagram has to be sound.
-/

namespace Patchbay

/-! ## Faults -/

namespace Diagram

variable {α : Type}

/-- What stands in the way of changing a shape. -/
def shapeFault? (d : Diagram α) (id : ShapeId) : Option Error :=
  match d.shape? id with
  | some _ => none
  | none => some (.unknownShape id)

/-- What stands in the way of changing a cable. -/
def cableFault? (d : Diagram α) (id : CableId) : Option Error :=
  match d.cable? id with
  | some _ => none
  | none => some (.unknownCable id)

/-- What stands in the way of starting a cable at a magnet. -/
def startFault? (d : Diagram α) (source : Terminal) : Option Error :=
  if source.side ≠ .output then some .wrongDirection
  else match d.magnet? source with
    | some _ => none
    | none => some (.unknownMagnet source)

/-- What stands in the way of landing a cable on a magnet. -/
def landFault? (d : Diagram α) (id : CableId) (dest : Terminal) : Option Error :=
  match d.cable? id with
  | none => some (.unknownCable id)
  | some c => if c.isAttached then some (.alreadyAttached id) else Edit.joinFault? d c.source dest

/-- What stands in the way of a change. -/
def Change.fault? (d : Diagram α) : Change α → Option Error
  | .addShape _ | .settle => none
  | .setPosition id _ | .shiftBy id _ | .deleteShape id | .delete (.shape id) => d.shapeFault? id
  | .moveEnd id _ | .deleteCable id | .delete (.cable id) => d.cableFault? id
  | .connect source dest => Edit.joinFault? d source dest
  | .startCable source => d.startFault? source
  | .attach id dest => d.landFault? id dest
  | .replaceStep old replacement => Edit.replaceFault? d old replacement

end Diagram

/-! ## Edits -/

namespace Edit

open Diagram Running

variable {α β γ : Type} {d d' : Diagram α} {fault : Option Diagram.Error}

/-- If the edit is refused, the diagram stays as it was. -/
def WholeOrNot (x : Edit α β) (d : Diagram α) : Prop :=
  ∀ e d', x.run d = (.error e, d') → d' = d

/-- With a fault the edit is refused for it and the diagram stays as it was. Without one the edit
goes through. -/
def RefusedFor (x : Edit α β) (d : Diagram α) : Option Diagram.Error → Prop
  | some e => x.run d = (.error e, d)
  | none => ∃ b d', x.run d = (.ok b, d')

theorem RefusedFor.run_eq_error_iff {x : Edit α β} (h : x.RefusedFor d fault)
    {e : Diagram.Error} : x.run d = (.error e, d') ↔ fault = some e ∧ d' = d := by
  cases fault with
  | none =>
    obtain ⟨b, d₁, hrun⟩ := h
    rw [hrun]
    exact ⟨fun he => (by cases he), fun he => (by cases he.1)⟩
  | some e₁ =>
    rw [show x.run d = (.error e₁, d) from h]
    constructor
    · intro he
      cases he
      exact ⟨rfl, rfl⟩
    · rintro ⟨he, rfl⟩
      cases he
      rfl

theorem RefusedFor.wholeOrNot {x : Edit α β} (h : x.RefusedFor d fault) : x.WholeOrNot d :=
  fun _ _ he => (h.run_eq_error_iff.1 he).2

/-- What is made of the result does not matter. -/
theorem RefusedFor.map {x : Edit α β} (h : x.RefusedFor d fault) (f : β → γ) :
    Edit.RefusedFor (x >>= fun b => pure (f b)) d fault := by
  cases fault with
  | none =>
    obtain ⟨b, d₁, hrun⟩ := h
    exact ⟨f b, d₁, run_bind_ok hrun _⟩
  | some e => exact run_bind_error h _

theorem refusedFor_shapeFault {x : Edit α β} {id : ShapeId}
    (hlive : ∀ s, d.shape? id = some s → ∃ b d', x.run d = (.ok b, d'))
    (hgone : d.shape? id = none → x.run d = (.error (.unknownShape id), d)) :
    x.RefusedFor d (d.shapeFault? id) := by
  unfold shapeFault?
  cases h : d.shape? id with
  | none => exact hgone h
  | some s => exact hlive s h

theorem refusedFor_cableFault {x : Edit α β} {id : CableId}
    (hlive : ∀ c, d.cable? id = some c → ∃ b d', x.run d = (.ok b, d'))
    (hgone : d.cable? id = none → x.run d = (.error (.unknownCable id), d)) :
    x.RefusedFor d (d.cableFault? id) := by
  unfold cableFault?
  cases h : d.cable? id with
  | none => exact hgone h
  | some c => exact hlive c h

theorem refusedFor_setPosition (id : ShapeId) (p : Point α) :
    (setPosition id p).RefusedFor d (d.shapeFault? id) :=
  refusedFor_shapeFault (fun s h => ⟨_, _, by rw [run_setPosition, h]⟩)
    fun h => by rw [run_setPosition, h]

theorem refusedFor_deleteShape (id : ShapeId) :
    (deleteShape id).RefusedFor d (d.shapeFault? id) :=
  refusedFor_shapeFault (fun s h => ⟨_, _, by rw [run_deleteShape, h]⟩)
    fun h => by rw [run_deleteShape, h]

theorem refusedFor_deleteCable (id : CableId) :
    (deleteCable id).RefusedFor d (d.cableFault? id) :=
  refusedFor_cableFault (fun c h => ⟨_, _, by rw [run_deleteCable, h]⟩)
    fun h => by rw [run_deleteCable, h]

theorem refusedFor_moveEnd (id : CableId) (p : Point α) :
    (moveEnd id p).RefusedFor d (d.cableFault? id) :=
  refusedFor_cableFault (fun c h => ⟨_, _, by rw [run_moveEnd, h]⟩) fun h => by rw [run_moveEnd, h]

theorem wholeOrNot_deleteCable (id : CableId) : (deleteCable id).WholeOrNot d :=
  (refusedFor_deleteCable id).wholeOrNot

theorem wholeOrNot_delete (item : Item) : (delete item).WholeOrNot d := by
  cases item with
  | shape id => exact (refusedFor_deleteShape id).wholeOrNot
  | cable id => exact wholeOrNot_deleteCable id

variable [Scalar α]

theorem refusedFor_shiftBy (id : ShapeId) (p : Point α) :
    (shiftBy id p).RefusedFor d (d.shapeFault? id) :=
  refusedFor_shapeFault (fun s h => ⟨_, _, by rw [run_shiftBy, h]⟩) fun h => by rw [run_shiftBy, h]

theorem refusedFor_connect (s t : Terminal) : (connect s t).RefusedFor d (joinFault? d s t) := by
  cases h : joinFault? d s t with
  | none => exact ⟨_, _, by rw [run_connect, h]⟩
  | some e => exact (run_connect s t d).trans (by rw [h])

theorem refusedFor_startCable (s : Terminal) :
    (startCable s).RefusedFor d (d.startFault? s) := by
  unfold startFault?
  by_cases hside : s.side ≠ .output
  · rw [if_pos hside]
    exact (run_startCable s d).trans (if_pos hside)
  · rw [if_neg hside]
    have hrun := (run_startCable s d).trans (if_neg hside)
    cases hm : d.magnet? s with
    | none =>
      have hp : d.magnetPosition? s = none := by
        cases hp : d.magnetPosition? s with
        | none => rfl
        | some p => simpa [hm] using isSome_magnet?_of_magnetPosition? hp
      exact hrun.trans (by rw [hp])
    | some m =>
      obtain ⟨p, hp⟩ := exists_magnetPosition? hm
      exact ⟨_, _, hrun.trans (by rw [hp])⟩

theorem refusedFor_attach (id : CableId) (t : Terminal) :
    (attach id t).RefusedFor d (d.landFault? id t) := by
  unfold landFault?
  have hrun := run_attach id t d
  cases h : d.cable? id with
  | none => exact hrun.trans (by rw [h])
  | some c =>
    simp only [h] at hrun
    dsimp only
    by_cases hc : c.isAttached
    · rw [if_pos hc] at hrun ⊢
      exact hrun
    · rw [if_neg hc] at hrun ⊢
      cases hf : joinFault? d c.source t with
      | none => exact ⟨_, _, hrun.trans (by rw [hf])⟩
      | some e => exact hrun.trans (by rw [hf])

theorem wholeOrNot_attach (id : CableId) (t : Terminal) : (attach id t).WholeOrNot d :=
  (refusedFor_attach id t).wholeOrNot

/-- On a sound diagram a replacement is not refused once it has begun. -/
theorem refusedFor_replaceStep (h : d.Sound []) (old : ShapeId) {next : Shape α}
    (hnext : next.body.Conforms) :
    (replaceStep old next).RefusedFor d (replaceFault? d old next) := by
  have hrun := run_replaceStep h old hnext
  cases hf : replaceFault? d old next with
  | none =>
    rw [hf] at hrun
    obtain ⟨result, d', hok, -⟩ := hrun
    exact ⟨result, d', hok⟩
  | some e =>
    rw [hf] at hrun
    exact hrun

theorem wholeOrNot_replaceStep (h : d.Sound []) (old : ShapeId) {next : Shape α}
    (hnext : next.body.Conforms) : (replaceStep old next).WholeOrNot d :=
  (refusedFor_replaceStep h old hnext).wholeOrNot

end Edit

/-! ## Changes -/

namespace Diagram

open Edit

variable {α : Type} [Scalar α] {d : Diagram α}

theorem Sound.refusedFor_perform (h : d.Sound []) {c : Change α} (hc : c.Built) :
    c.perform.RefusedFor d (c.fault? d) := by
  cases c with
  | addShape s => exact ⟨_, _, rfl⟩
  | setPosition id p => exact (refusedFor_setPosition id p).map _
  | shiftBy id p => exact (refusedFor_shiftBy id p).map _
  | settle => exact ⟨_, _, rfl⟩
  | connect s t => exact (refusedFor_connect s t).map _
  | startCable s => exact (refusedFor_startCable s).map _
  | moveEnd id p => exact (refusedFor_moveEnd id p).map _
  | attach id t => exact (refusedFor_attach id t).map _
  | deleteShape id => exact (refusedFor_deleteShape id).map _
  | deleteCable id => exact (refusedFor_deleteCable id).map _
  | delete item =>
    cases item with
    | shape id => exact (refusedFor_deleteShape id).map _
    | cable id => exact (refusedFor_deleteCable id).map _
  | replaceStep old next => exact (refusedFor_replaceStep h old hc.conforms).map _

/-- A change of a reachable diagram is refused just for the fault that the diagram before it shows,
and then the diagram stays as it was. So no change is refused when a part of it has been made. -/
theorem refused_iff_of_reachable (h : d.Reachable) {c : Change α} (hc : c.Built) (e : Error)
    (d' : Diagram α) : d.run c = (.error e, d') ↔ c.fault? d = some e ∧ d' = d :=
  (h.sound.refusedFor_perform hc).run_eq_error_iff

/-- An input cannot be replaced by a step, and a step with a loose cable can be deleted. -/
theorem refused_stepWithLooseCable :
    ((blank.after stepWithLooseCable).Reachable ∧
      ∀ c ∈ ([.replaceStep ⟨0⟩ (.step "g" [] [] Point.origin), .deleteShape ⟨1⟩] :
        List (Change Double)), c.Built) ∧
    (blank.after stepWithLooseCable).run (.replaceStep ⟨0⟩ (.step "g" [] [] Point.origin)) =
      (.error (.notAStep "a"), blank.after stepWithLooseCable) ∧
    ∀ e d, (blank.after stepWithLooseCable).run (.deleteShape ⟨1⟩) ≠ (.error e, d) := by
  have hreach : (blank.after stepWithLooseCable).Reachable := by
    refine ⟨_, ?_, rfl⟩
    simp [stepWithLooseCable, Change.Built, Shape.Built.rawInput, Shape.Built.step]
  have hbuilt : ∀ c ∈ ([.replaceStep ⟨0⟩ (.step "g" [] [] Point.origin), .deleteShape ⟨1⟩] :
      List (Change Double)), c.Built := by
    simp [Change.Built, Shape.Built.step]
  have hrefused := fun c hc => refused_iff_of_reachable hreach (hbuilt c hc)
  refine ⟨⟨hreach, hbuilt⟩, ?_, fun e d hrun => ?_⟩
  · exact (hrefused _ List.mem_cons_self _ _).2 ⟨rfl, rfl⟩
  · obtain ⟨hfault, -⟩ := (hrefused _ (by simp) e d).1 hrun
    cases hfault

end Diagram

end Patchbay
