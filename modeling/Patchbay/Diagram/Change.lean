import Patchbay.Diagram.Join
import Patchbay.Diagram.Replace

/-!
# Histories of a diagram

The changes of a diagram as data, so that one can speak of any sequence of them. A refused change
counts as well: what it leaves behind is the next diagram.
-/

namespace Patchbay

namespace Diagram

variable {α : Type}

/-- A change that can be asked for. -/
inductive Change (α : Type)
  | addShape (shape : Shape α)
  | setPosition (id : ShapeId) (centre : Point α)
  | shiftBy (id : ShapeId) (delta : Point α)
  | settle
  | connect (source dest : Terminal)
  | startCable (source : Terminal)
  | moveEnd (id : CableId) (point : Point α)
  | attach (id : CableId) (dest : Terminal)
  | deleteShape (id : ShapeId)
  | deleteCable (id : CableId)
  | delete (item : Item)
  | replaceStep (old : ShapeId) (replacement : Shape α)

/-- What a change gives. -/
inductive Outcome
  | done
  | shape (id : ShapeId)
  | cable (id : CableId)
  | replaced (result : Edit.Replacement)
deriving DecidableEq

variable [Scalar α]

/-- Carry out a change. -/
def Change.perform : Change α → Edit α Outcome
  | .addShape s => .shape <$> Edit.addShape s
  | .setPosition id centre => Edit.setPosition id centre *> pure .done
  | .shiftBy id delta => Edit.shiftBy id delta *> pure .done
  | .settle => Edit.settle *> pure .done
  | .connect source dest => .cable <$> Edit.connect source dest
  | .startCable source => .cable <$> Edit.startCable source
  | .moveEnd id p => Edit.moveEnd id p *> pure .done
  | .attach id dest => Edit.attach id dest *> pure .done
  | .deleteShape id => Edit.deleteShape id *> pure .done
  | .deleteCable id => Edit.deleteCable id *> pure .done
  | .delete item => Edit.delete item *> pure .done
  | .replaceStep old replacement => .replaced <$> Edit.replaceStep old replacement

/-- What a change gives, and the diagram after it. -/
def run (d : Diagram α) (c : Change α) : Except Error Outcome × Diagram α := c.perform.run d

/-- The diagram after some changes, refused ones included. -/
def after (d : Diagram α) (changes : List (Change α)) : Diagram α :=
  changes.foldl (fun d c => (d.run c).2) d

end Diagram

end Patchbay
