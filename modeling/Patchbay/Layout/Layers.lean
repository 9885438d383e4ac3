import Patchbay.Layout.Queue
import Patchbay.Phases

/-!
# Layers

A layout stacks the shapes in layers that follow the phases: first the inputs of the first phase,
then for each phase its steps together with the outputs that the phase before feeds. Inputs that a
later phase is the first to need stand one layer above it, and shapes that no cable leads to stand
in the first layer.
-/

namespace Patchbay

namespace Layout

variable {α : Type}

/-- The members of a list that are not placed, without repetition. -/
def newOnes (placed ids : List ShapeId) : List ShapeId :=
  (ids.filter (· ∉ placed)).eraseDups

/-- Layers built so far, the latest first, and the shapes in them. -/
structure Stack where
  placed : List ShapeId
  layers : List (List ShapeId)

/-- A layer that is being built. -/
structure Growing where
  placed : List ShapeId
  layer : List ShapeId
  queue : Queue

/-- Take in a shape that a step of the phase before feeds: an output joins the layer, a step of the
phase takes its turn, and anything else is left. -/
def Growing.take (d : Diagram α) (phase : List ShapeId) (g : Growing) (id : ShapeId) : Growing :=
  if id ∈ g.placed then g
  else match d.shape? id with
  | none => g
  | some s =>
    if s.isOutput then { g with placed := g.placed ++ [id], layer := g.layer ++ [id] }
    else if id ∈ phase then
      let (joined, queue) := g.queue.offer id
      { g with layer := g.layer ++ joined, queue }
    else g

/-- Add shapes to the latest layer. -/
def Stack.addToLatest (s : Stack) (ids : List ShapeId) : Stack :=
  ⟨s.placed ++ ids, match s.layers with
    | [] => []
    | latest :: rest => (latest ++ ids) :: rest⟩

/-- Build the layer of a phase upon the layer of the phase before it. -/
def Stack.addPhase (d : Diagram α) (s : Stack) (before phase : List ShapeId) : Stack :=
  let grown := (before.flatMap d.successors).foldl (Growing.take d phase)
    ⟨s.placed, [], .ofPhase phase⟩
  let layer := grown.layer ++ grown.queue.finish
  let placed := grown.placed ++ phase
  let inputs := newOnes placed (phase.flatMap d.feedingInputs)
  let s := Stack.addToLatest ⟨placed, s.layers⟩ inputs
  ⟨s.placed, layer :: s.layers⟩

/-- Build the layers of the phases after the first. Behind the last phase a layer is built for the
outputs that it feeds. -/
def Stack.addPhases (d : Diagram α) : List (List ShapeId) → Stack → Stack
  | [], s => s
  | [last], s => s.addPhase d last []
  | before :: phase :: rest, s => Stack.addPhases d (phase :: rest) (s.addPhase d before phase)

/-- The layers of the inputs of the first phase and of the first phase. -/
def Stack.start (d : Diagram α) : List (List ShapeId) → Stack
  | [] => ⟨[], [[]]⟩
  | phase :: _ =>
    let inputs := newOnes [] (phase.flatMap d.feedingInputs)
    ⟨inputs ++ phase, [phase, inputs]⟩

/-- All shapes of a diagram in layers, from the first to the last. -/
def layersOf (d : Diagram α) (phases : Phases) : List (List ShapeId) :=
  let s := (Stack.start d phases.layers).addPhases d phases.layers
  let loose := d.order.filter (· ∉ s.placed)
  let layers := match s.layers.reverse with
    | [] => []
    | first :: rest => (first ++ loose) :: rest
  layers.filter (!·.isEmpty)

end Layout

end Patchbay
