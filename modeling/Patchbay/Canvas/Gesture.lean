import Patchbay.Canvas.Actions

/-!
# Histories of a canvas

The actions on a canvas as data, so that one can speak of any sequence of them, refused ones
included.
-/

namespace Patchbay

namespace Canvas

variable {α : Type}

/-- An action that can be asked for. -/
inductive Gesture (α : Type)
  | addShape (shape : Shape α)
  | moveShape (id : ShapeId) (delta : Point α)
  | finishDrag
  | delete (item : Item)
  | replaceStep (old : ShapeId) (replacement : Shape α)
  | startCable (source : Terminal)
  | dragCable (id : CableId) (point : Point α)
  | dropCable (id : CableId) (point : Point α)
  | updatePhases
  | layOut

/-- What an action gives. -/
inductive Outcome
  | done
  | shape (id : ShapeId)
  | cable (id : CableId)
  | moved (report : Collision.Report)
  | replaced (result : Edit.Replacement)
  | dropped (result : Drop)
  | phases (result : Option Phases)
  | layers (layers : List (List ShapeId))
  | noLayout (error : Layout.Error)

variable [Scalar α]

/-- Lay the diagram out again, or say why it cannot be done. -/
def tryLayOut : Action α Outcome := do
  let (result, c) := layOut.run (← get)
  set c
  match result with
  | .ok layers => return .layers layers
  | .error e => return .noLayout e

/-- Carry out an action. -/
def Gesture.perform : Gesture α → Action α Outcome
  | .addShape s => .shape <$> Canvas.addShape s
  | .moveShape id delta => .moved <$> Canvas.moveShape id delta
  | .finishDrag => Canvas.finishDrag *> pure .done
  | .delete item => Canvas.delete item *> pure .done
  | .replaceStep old replacement => .replaced <$> Canvas.replaceStep old replacement
  | .startCable source => .cable <$> Canvas.startCable source
  | .dragCable id p => Canvas.dragCable id p *> pure .done
  | .dropCable id p => .dropped <$> Canvas.dropCable id p
  | .updatePhases => do
    modify Canvas.updatePhases
    return .phases (← get).phases
  | .layOut => tryLayOut

/-- What an action gives, and the canvas after it. -/
def run (c : Canvas α) (g : Gesture α) : Except Diagram.Error Outcome × Canvas α := g.perform.run c

/-- The canvas after some actions, refused ones included. -/
def after (c : Canvas α) (gestures : List (Gesture α)) : Canvas α :=
  gestures.foldl (fun c g => (c.run g).2) c

end Canvas

end Patchbay
