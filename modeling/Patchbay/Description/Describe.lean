import Patchbay.Canvas.Basic
import Patchbay.Description.Basic
import Patchbay.Diagram.Integrity

/-!
# Describing a canvas

The description of the pipeline on a canvas, if it is complete. Inputs and outputs are numbered in
the order in which they are read, and steps in the order of execution. A cable is described by what
it leaves: an input by its label, and a step by its number and the label of the magnet.
-/

namespace Patchbay

namespace Description

variable {α : Type}

/-- The sockets of a side, numbered from the top. -/
def socketsOf (magnets : List (Magnet α)) : List Socket :=
  magnets.zipIdx.map fun (m, i) => ⟨m.label, i + 1, m.datatype⟩

/-- The number of a step: its position in the order of execution, from one. -/
def numberIn (order : List ShapeId) (id : ShapeId) : Option Nat :=
  (order.idxOf? id).map (· + 1)

/-- What feeds an input magnet: the number of the step, or zero for an input of the pipeline, and
the name that the cable leaves by. -/
def sourceOf (d : Diagram α) (order : List ShapeId) (m : Magnet α) : Option (Nat × String) := do
  let cable ← d.cable? (← m.cables.head?)
  let s ← d.shape? cable.source.shape
  if s.isInput then return (0, s.label)
  let label := (← d.magnet? cable.source).label
  return (← numberIn order cable.source.shape, label)

variable [Scalar α]

/-- The place of a point as shares of the width and height of the canvas. -/
def shares (s : Settings α) (p : Point α) : α × α := (p.x / s.width, p.y / s.height)

/-- The shapes of a list, in the order in which they are read, with their positions from one. -/
def numbered (d : Diagram α) (ids : List ShapeId) : List (Shape α × Nat) :=
  (stableSort (Phases.compareReading d) ids).zipIdx.filterMap fun (id, i) =>
    (d.shape? id).map (·, i + 1)

/-- The order of execution on a canvas. Without one, steps count in the order they came. -/
def orderOf (c : Canvas α) : List ShapeId :=
  match c.phases <|> (Phases.compute c.diagram).toOption with
  | some p => p.flatten
  | none => c.diagram.steps

/-- The description of an input. -/
def Input.ofShape (s : Settings α) (shape : Shape α) (index : Nat) : Input α :=
  let (x, y) := shares s shape.centre
  let datatype := match shape.kind with
    | .typedInput t => some t
    | _ => none
  ⟨shape.label, index, x, y, datatype⟩

/-- The description of a step. -/
def Step.ofShape (s : Settings α) (d : Diagram α) (order : List ShapeId) (id : ShapeId)
    (shape : Shape α) : Step α :=
  let (x, y) := shares s shape.centre
  let cables := shape.inputs.filterMap fun m =>
    (sourceOf d order m).map fun (step, name) => ⟨step, name, m.label⟩
  ⟨shape.label, (numberIn order id).getD 0, x, y, socketsOf shape.inputs, socketsOf shape.outputs,
    cables⟩

/-- The description of an output, if a cable feeds it. -/
def Output.ofShape? (s : Settings α) (d : Diagram α) (order : List ShapeId) (shape : Shape α)
    (index : Nat) : Option (Output α) := do
  let m ← shape.inputs.head?
  let (step, name) ← sourceOf d order m
  let (x, y) := shares s shape.centre
  return ⟨shape.label, index, step, name, x, y, m.datatype⟩

/-- The description of a canvas, however incomplete its pipeline is. -/
def ofCanvas (c : Canvas α) : Description α :=
  let d := c.diagram
  let order := orderOf c
  { inputs := (numbered d d.inputs).map fun (s, i) => .ofShape c.settings s i
    steps := order.filterMap fun id => (d.shape? id).map (Step.ofShape c.settings d order id)
    outputs := (numbered d d.outputs).filterMap fun (s, i) =>
      Output.ofShape? c.settings d order s i }

end Description

namespace Canvas

variable {α : Type} [Scalar α]

/-- The description of a canvas whose pipeline is complete. -/
def describe (c : Canvas α) : Except Diagram.Error (Description α) := do
  c.diagram.checkIntegrity
  return .ofCanvas c

end Canvas

end Patchbay
