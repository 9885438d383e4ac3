import Patchbay.Diagram.Edit
import Patchbay.Layout.Auto

/-!
# The canvas

A canvas holds a diagram with the settings, the output zone and the order of execution, which is
kept up to date while the diagram changes. There is no order while some step is not wired up.
-/

namespace Patchbay

/-- A diagram that is being worked on. -/
structure Canvas (α : Type) where
  diagram : Diagram α
  settings : Settings α
  zone : Shape α
  /-- The order of execution, if there is one. -/
  phases : Option Phases

namespace Canvas

/-- A change of a canvas that gives a `β` or is refused. -/
abbrev Action (α β : Type) := ExceptT Diagram.Error (StateM (Canvas α)) β

variable {α : Type} [Scalar α]

def updatePhases (c : Canvas α) : Canvas α :=
  { c with phases := (Phases.compute c.diagram).toOption }

def ofDiagram (settings : Settings α) (d : Diagram α) : Canvas α :=
  updatePhases ⟨d, settings, .zone settings.zoneBounds, none⟩

def blank (settings : Settings α) : Canvas α := ofDiagram settings .blank

def isAmbiguous (c : Canvas α) : Bool := c.phases.any (·.isAmbiguous)

/-- Sort shared phases again, because steps have moved. -/
def sortPhases (c : Canvas α) : Canvas α :=
  { c with phases := c.phases.map fun p =>
      if p.isAmbiguous then Phases.sortShared c.diagram p else p }

/-- What shapes on the canvas collide with. -/
def surroundings (c : Canvas α) : Surroundings α := ⟨c.settings, some c.zone⟩

/-- Push a shape and everything in its way apart. -/
def resolve (c : Canvas α) (id : ShapeId) : Canvas α × Collision.Report :=
  let p := Collision.resolve c.surroundings c.settings.dragBias id c.diagram
  ({ c with diagram := p.diagram }, p.report)

def settle (c : Canvas α) : Canvas α := { c with diagram := c.diagram.settle }

/-- The moved shape, or one that it pushed aside, is a step. -/
def movedStep (c : Canvas α) (mover : ShapeId) (report : Collision.Report) : Bool :=
  (mover :: report.displaced).any fun id => (c.diagram.shape? id).any (·.isStep)

/-! ## Changing the diagram of a canvas -/

/-- Carry out a change of the diagram, and give what came of it. -/
def attempt {β : Type} (e : Edit α β) : Action α (Except Diagram.Error β) := do
  let c ← get
  let (result, d) := e.run c.diagram
  set { c with diagram := d }
  return result

/-- Carry out a change of the diagram. -/
def edit {β : Type} (e : Edit α β) : Action α β := do
  match ← attempt e with
  | .ok b => return b
  | .error e => throw e

end Canvas

end Patchbay
