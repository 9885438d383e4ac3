import Patchbay.Diagram.Edit

/-!
# Deleting shapes and cables

A shape takes its cables with it, and a cable takes with it the output that it leaves without a
cable.
-/

namespace Patchbay

namespace Edit

variable {α : Type}

/-- Take a cable off its magnets and out of the diagram. -/
def detach (id : CableId) : Edit α (Cable α) := do
  let c ← requireCable id
  modify (·.unplug id c)
  return c

/-- Delete a cable. An output that loses its only cable goes with it. -/
def deleteCable (id : CableId) : Edit α Unit := do
  let c ← detach id
  let some dest := c.dest | return
  let some s := (← get).shape? dest.shape | return
  if s.isOutput ∧ ¬ s.inputs.any (·.isConnected) then
    modify (·.removeShape dest.shape)

/-- Delete a shape with all its cables, and with the outputs that lose their only cable. -/
def deleteShape (id : ShapeId) : Edit α Unit := do
  let s ← requireShape id
  s.cables.forM fun c => do
    if ((← get).cable? c).isSome then deleteCable c
  modify (·.removeShape id)

def delete : Item → Edit α Unit
  | .shape id => deleteShape id
  | .cable id => deleteCable id

end Edit

end Patchbay
