import Patchbay.Diagram.Basic

/-!
# Changing a diagram

A change of a diagram is an action on a state that may be refused with a reason. The diagram after
a refused change is part of what it gives, so that "nothing has changed" can be said about it.

Here are the changes of shapes that leave the cables alone. Joining, deleting and replacing have
modules of their own.
-/

namespace Patchbay

/-- A change of a diagram that gives a `β` or is refused. -/
abbrev Edit (α β : Type) := ExceptT Diagram.Error (StateM (Diagram α)) β

namespace Edit

variable {α : Type}

/-- The shape of that name. -/
def requireShape (id : ShapeId) : Edit α (Shape α) := do
  match (← get).shape? id with
  | some s => return s
  | none => throw (.unknownShape id)

/-- The cable of that name. -/
def requireCable (id : CableId) : Edit α (Cable α) := do
  match (← get).cable? id with
  | some c => return c
  | none => throw (.unknownCable id)

/-- Add a shape. It comes without cables, whatever its magnets list. -/
def addShape (s : Shape α) : Edit α ShapeId := do
  let d ← get
  set (d.addShape s)
  return d.nextShape

/-- Let a shape rest elsewhere, with the same shift from there. -/
def setPosition (id : ShapeId) (centre : Point α) : Edit α Unit := do
  let _ ← requireShape id
  modify (·.setPosition id centre)

def shiftBy [Scalar α] (id : ShapeId) (delta : Point α) : Edit α Unit := do
  let _ ← requireShape id
  modify (·.shiftBy id delta)

def settle [Scalar α] : Edit α Unit := modify Diagram.settle

end Edit

end Patchbay
