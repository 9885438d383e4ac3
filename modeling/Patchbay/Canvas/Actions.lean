import Patchbay.Canvas.Hit
import Patchbay.Diagram.Join
import Patchbay.Diagram.Replace

/-!
# Working on a canvas

What a user does to the diagram: placing, dragging, deleting and replacing shapes, and pulling
cables from magnet to magnet or into the output zone. Each action leaves the order of execution up
to date.
-/

namespace Patchbay

namespace Canvas

variable {α : Type} [Scalar α]

/-! ## Shapes -/

/-- Place a new shape, and push it clear of what it lands on. -/
def addShape (s : Shape α) : Action α ShapeId := do
  let id ← edit (.addShape s)
  let (c, report) := (← get).resolve id
  let c := c.settle
  set (if s.isStep then c.updatePhases else if c.movedStep id report then c.sortPhases else c)
  return id

/-- Drag a shape. It stays shifted until the drag is finished. -/
def moveShape (id : ShapeId) (delta : Point α) : Action α Collision.Report := do
  edit (.shiftBy id delta)
  let (c, report) := (← get).resolve id
  set (if c.movedStep id report then c.sortPhases else c)
  return report

def finishDrag : Action α Unit := modify fun c => c.settle.sortPhases

def delete (item : Item) : Action α Unit := do
  edit (.delete item)
  modify updatePhases

/-- Put a step in the place of another. -/
def replaceStep (old : ShapeId) (replacement : Shape α) : Action α Edit.Replacement := do
  let outcome ← edit (.replaceStep old replacement)
  modify updatePhases
  return outcome

/-! ## Cables -/

def startCable (source : Terminal) : Action α CableId := edit (.startCable source)

def dragCable (id : CableId) (p : Point α) : Action α Unit := edit (.moveEnd id p)

/-- What became of a cable that was let go. -/
inductive Drop
  /-- It landed on a magnet. -/
  | attached (dest : Terminal)
  /-- It landed in the output zone, and an output was made for it. -/
  | created (output : ShapeId)
  /-- It was removed. -/
  | discarded
deriving DecidableEq

def outputLabel (n : Nat) : String := s!"output_{n}"

/-- The first of these labels, from the first on, that no shape has. One of the first `n + 1` labels
is free when there are `n` shapes. -/
def freeOutputLabel (d : Diagram α) : String :=
  (((List.range' 1 (d.size + 1)).map outputLabel).find? fun label =>
    !d.shapes.any fun (_, s) => s.label = label).getD ""

/-- Land a cable on a magnet, or remove it if it does not fit there. -/
def landCable (id : CableId) (dest : Terminal) : Action α Drop := do
  match ← attempt (.attach id dest) with
  | .ok () => return .attached dest
  | .error _ =>
    edit (.deleteCable id)
    return .discarded

/-- Make an output at a point of the output zone for a cable. -/
def outputFor (id : CableId) (source : Terminal) (p : Point α) : Action α Drop := do
  let d := (← get).diagram
  let output ← edit (.addShape
    (.output (freeOutputLabel d) ((d.magnet? source).bind (·.datatype)) p))
  match ← attempt (.attach id ⟨output, .input, 0⟩) with
  | .ok () =>
    modify fun c => (c.resolve output).1.settle
    return .created output
  | .error e =>
    edit (.deleteShape output)
    throw e

/-- Let go of a cable at a point. -/
def dropCable (id : CableId) (p : Point α) : Action α Drop := do
  let cable ← edit (.requireCable id)
  let c ← get
  let outcome ← match (c.magnetAt? p).filter (·.side = .input) with
    | some dest => landCable id dest
    | none =>
      if c.zone.Contains p then outputFor id cable.source p
      else do
        edit (.deleteCable id)
        pure .discarded
  modify updatePhases
  return outcome

/-! ## Layout -/

/-- Lay the diagram out again. -/
def layOut : ExceptT Layout.Error (StateM (Canvas α)) (List (List ShapeId)) := do
  let c ← get
  match Phases.compute c.diagram with
  | .error e => throw e
  | .ok phases =>
    let (result, d) := (Layout.auto c.surroundings phases).run c.diagram
    match result with
    | .error e =>
      set { c with diagram := d }
      throw e
    | .ok layers =>
      set { c with diagram := d }.updatePhases
      return layers

end Canvas

end Patchbay
