import Patchbay.Diagram.Basic

/-!
# Complete pipelines

A diagram can be submitted as a pipeline when it has inputs, steps and outputs and nothing else,
each input and output has one connected magnet, and every magnet of every step is connected.
-/

namespace Patchbay

namespace Diagram

variable {α : Type}

/-- The shapes of a list that are still there. -/
def present (d : Diagram α) (ids : List ShapeId) : List (Shape α) := ids.filterMap d.shape?

def connectedCount (magnets : List (Magnet α)) : Nat := magnets.countP (·.isConnected)

def firstLoose? (s : Shape α) : Option (Magnet α) := s.allMagnets.find? (!·.isConnected)

/-- Check that the diagram is a complete pipeline, and report the first thing that is missing. -/
def checkIntegrity (d : Diagram α) : Except Error Unit := do
  if d.isEmpty then throw .empty
  if d.inputs.isEmpty then throw .noInputs
  if d.steps.isEmpty then throw .noSteps
  if d.outputs.isEmpty then throw .noOutputs
  if d.size ≠ d.inputs.length + d.steps.length + d.outputs.length then
    throw (.strayShapes d.size d.inputs.length d.steps.length d.outputs.length)
  match (d.present d.inputs).find? (connectedCount ·.outputs ≠ 1) with
  | some s => throw (.looseInput s.label)
  | none => pure ()
  match (d.present d.outputs).find? (connectedCount ·.inputs ≠ 1) with
  | some s => throw (.looseOutput s.label)
  | none => pure ()
  match (d.present d.steps).findSome? fun s => (firstLoose? s).map (s, ·) with
  | some (s, m) => throw (.looseMagnet s.label m.label)
  | none => pure ()

end Diagram

end Patchbay
