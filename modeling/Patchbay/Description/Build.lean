import Patchbay.Description.Basic
import Patchbay.Diagram.Join
import Patchbay.Settings
import Patchbay.Sorting

/-!
# Building a diagram from a description

The shapes come first: inputs in the order of their indices, then steps in the order of their
numbers. The cables into the steps follow, step by step, and then the outputs, each with its cable.
A name must denote exactly one thing. The first cable that cannot be made ends the building.
-/

namespace Patchbay

namespace Description

variable {α : Type}

/-! ## Shapes -/

/-- Sort by a number, and keep the order where it is the same. -/
def sortOn {β : Type} (key : β → Nat) (xs : List β) : List β :=
  stableSort (fun a b => compare (key a) (key b)) xs

/-- The sockets of a side, in the order of their indices. -/
def mounted (sockets : List Socket) : List Patchbay.Socket :=
  (sortOn Socket.index sockets).map fun p => ⟨p.name, p.datatype⟩

variable [Scalar α]

/-- The point of the canvas at the given shares of its width and height. -/
def place (s : Settings α) (x y : α) : Point α := ⟨x * s.width, y * s.height⟩

def Input.shape (s : Settings α) (i : Input α) : Shape α :=
  match i.datatype with
  | some t => .typedInput i.name t (place s i.x i.y)
  | none => .rawInput i.name (place s i.x i.y)

def Step.shape (s : Settings α) (p : Step α) : Shape α :=
  .step p.name (mounted p.inputs) (mounted p.outputs) (place s p.x p.y)

def Output.shape (s : Settings α) (o : Output α) : Shape α :=
  .output o.name o.datatype (place s o.x o.y)

/-! ## Names -/

/-- The shapes that cables may refer to. -/
structure Directory where
  /-- The inputs, with their names. -/
  inputs : List (String × ShapeId)
  /-- The steps, with their numbers. -/
  steps : List (Nat × ShapeId)

/-- The first step with a number. -/
def Directory.step (dir : Directory) (number : Nat) : Except Diagram.Error ShapeId :=
  match dir.steps.find? (·.1 = number) with
  | some (_, id) => .ok id
  | none => .error (.noShapeNamed s!"step {number}")

/-- The only input with a name. -/
def Directory.input (dir : Directory) (name : String) : Except Diagram.Error ShapeId :=
  match dir.inputs.filter (·.1 = name) with
  | [(_, id)] => .ok id
  | [] => .error (.noShapeNamed name)
  | found => .error (.ambiguousLabel name found.length)

/-- The only magnet with a label on one side of a shape. -/
def magnetNamed (d : Diagram α) (id : ShapeId) (side : Side) (label : String) :
    Except Diagram.Error Terminal :=
  match d.shape? id with
  | none => .error (.unknownShape id)
  | some s =>
    match (s.magnets side).zipIdx.filter (·.1.label = label) with
    | [(_, i)] => .ok ⟨id, side, i⟩
    | [] => .error (.noMagnetNamed s.label label)
    | found => .error (.ambiguousLabel (s.label ++ "." ++ label) found.length)

/-- The magnet that a cable leaves: that of the input with the name if the step is zero, else the
output magnet of the step with the name as its label. -/
def sourceMagnet (d : Diagram α) (dir : Directory) (step : Nat) (name : String) :
    Except Diagram.Error Terminal := do
  if step = 0 then return ⟨← dir.input name, .output, 0⟩
  else magnetNamed d (← dir.step step) .output name

/-! ## Building -/

/-- Make a cable into a step. -/
def addCable (dir : Directory) (dest : ShapeId) (c : CableIn) : Edit α Unit := do
  let source ← sourceMagnet (← get) dir c.sourceStep c.sourceName
  let target ← magnetNamed (← get) dest .input c.destName
  let _ ← Edit.connect source target

/-- Make an output and its cable. -/
def addOutput (s : Settings α) (dir : Directory) (o : Output α) : Edit α Unit := do
  let source ← sourceMagnet (← get) dir o.sourceStep o.sourceName
  let output ← Edit.addShape (o.shape s)
  let _ ← Edit.connect source ⟨output, .input, 0⟩

/-- Make all that a description speaks of. -/
def assemble (s : Settings α) (p : Description α) : Edit α Unit := do
  let inputs ← (sortOn Input.index p.inputs).mapM fun i =>
    return (i.name, ← Edit.addShape (i.shape s))
  let inOrder := sortOn Step.number p.steps
  let steps ← inOrder.mapM fun q => return (q.number, ← Edit.addShape (q.shape s))
  let dir : Directory := ⟨inputs, steps⟩
  inOrder.forM fun q => do
    let dest ← dir.step q.number
    q.cables.forM (addCable dir dest)
  (sortOn Output.index p.outputs).forM (addOutput s dir)

/-- The diagram that a description denotes. -/
def build (s : Settings α) (p : Description α) : Except Diagram.Error (Diagram α) :=
  let (result, d) := (assemble s p).run .blank
  result.map fun _ => d

end Description

end Patchbay
