import Patchbay.Diagram.Delete

/-!
# Replacing a step

A step can be put in the place of another. It keeps the place on the canvas, and those cables that
find a magnet of the same datatype at the same index.
-/

namespace Patchbay

namespace Edit

variable {α : Type}

/-- What came of replacing a step. -/
structure Replacement where
  shape : ShapeId
  /-- One of the two steps is fully connected and the other is not. -/
  statusChanged : Bool
deriving DecidableEq

/-- The cables at a list of magnets, each with the magnet of another list that takes it over: the
one at the same index, if its datatype is the same. -/
def carryOver (old new : List (Magnet α)) : List (CableId × Option Nat) :=
  old.zipIdx.flatMap fun (m, i) =>
    let target := if (new[i]?).any (·.datatype = m.datatype) then some i else none
    m.cables.map (·, target)

/-- Let a cable arrive at an input magnet of the step instead, or delete it. -/
def carryInput [Scalar α] (id : ShapeId) (c : CableId) : Option Nat → Edit α Unit
  | some index => do
    let cable ← detach c
    modify (·.join cable.source ⟨id, .input, index⟩)
  | none => deleteCable c

/-- Let a cable leave from an output magnet of the step instead, or delete it. A loose cable is
always deleted. -/
def carryOutput [Scalar α] (id : ShapeId) (c : CableId) (target : Option Nat) : Edit α Unit := do
  match target, ((← get).cable? c).bind (·.dest) with
  | some index, some dest => do
    let _ ← detach c
    modify (·.join ⟨id, .output, index⟩ dest)
  | _, _ => deleteCable c

/-- Put a step in the place of another. Cables go over to the magnet at the same index of the same
side if its datatype is the same, and are deleted otherwise. -/
def replaceStep [Scalar α] (old : ShapeId) (replacement : Shape α) : Edit α Replacement := do
  let previous ← requireShape old
  unless previous.isStep do throw (.notAStep previous.label)
  unless replacement.isStep do throw (.notAStep replacement.label)
  let id := (← get).nextShape
  modify (·.placeShape
    { replacement with position := previous.position, shift := previous.shift })
  (carryOver previous.inputs replacement.inputs).forM fun (c, target) => carryInput id c target
  (carryOver previous.outputs replacement.outputs).forM fun (c, target) => carryOutput id c target
  modify fun d =>
    { d with
      shapeSlots := d.shapeSlots.remove old.slot
      order := d.order.map fun s => if s = old then id else s
      steps := d.steps.map fun s => if s = old then id else s }
  let isComplete := (← get).isFullyConnected id
  return ⟨id, previous.isFullyConnected != isComplete⟩

end Edit

end Patchbay
