import Patchbay.Arena
import Patchbay.Cable
import Patchbay.Diagram.Error
import Patchbay.Shape.Basic

/-!
# Diagrams

A diagram holds shapes and the cables between them. Beside the slots it keeps the order in which
shapes and cables came, and the inputs, steps and outputs among the shapes. Both ends of a cable
know each other: the cable holds the places of its magnets, and each magnet lists its cables.

Here are the look-ups and the elementary changes, which do not check anything. The changes that
keep the lists in agreement are built from these in the modules beside this one.
-/

namespace Patchbay

/-- Shapes and the cables between them. -/
structure Diagram (α : Type) where
  shapeSlots : Arena (Shape α)
  cableSlots : Arena (Cable α)
  /-- All shapes, in the order they came. -/
  order : List ShapeId
  inputs : List ShapeId
  steps : List ShapeId
  outputs : List ShapeId
  /-- All cables, in the order they came. -/
  cableOrder : List CableId

namespace Diagram

variable {α : Type}

def blank : Diagram α := ⟨.empty, .empty, [], [], [], [], []⟩

/-! ## Looking up -/

/-- The shape of that name, if it is still there. -/
def shape? (d : Diagram α) (id : ShapeId) : Option (Shape α) := d.shapeSlots.get? id.slot

/-- The cable of that name, if it is still there. -/
def cable? (d : Diagram α) (id : CableId) : Option (Cable α) := d.cableSlots.get? id.slot

/-- The shapes in the order they came. -/
def shapes (d : Diagram α) : List (ShapeId × Shape α) :=
  d.order.filterMap fun id => (d.shape? id).map (id, ·)

/-- The cables in the order they came. -/
def cables (d : Diagram α) : List (CableId × Cable α) :=
  d.cableOrder.filterMap fun id => (d.cable? id).map (id, ·)

def size (d : Diagram α) : Nat := d.order.length

def isEmpty (d : Diagram α) : Bool := d.order.isEmpty

def magnet? (d : Diagram α) (t : Terminal) : Option (Magnet α) := do
  let s ← d.shape? t.shape
  (s.magnets t.side)[t.index]?

def labelled (d : Diagram α) (label : String) : List ShapeId :=
  (d.shapes.filter fun (_, s) => s.label = label).map (·.1)

/-- The shape with a label. More than one is an error. -/
def find? (d : Diagram α) (label : String) : Except Error (Option ShapeId) :=
  match d.labelled label with
  | [] => .ok none
  | [id] => .ok (some id)
  | ids => .error (.ambiguousLabel label ids.length)

def isFullyConnected (d : Diagram α) (id : ShapeId) : Bool :=
  (d.shape? id).any (·.isFullyConnected)

/-! ## Elementary changes -/

def modifyShape (d : Diagram α) (id : ShapeId) (f : Shape α → Shape α) : Diagram α :=
  { d with shapeSlots := d.shapeSlots.modify id.slot f }

def modifyCable (d : Diagram α) (id : CableId) (f : Cable α → Cable α) : Diagram α :=
  { d with cableSlots := d.cableSlots.modify id.slot f }

def modifyMagnet (d : Diagram α) (t : Terminal) (f : Magnet α → Magnet α) : Diagram α :=
  d.modifyShape t.shape (·.modifyMagnet t.side t.index f)

/-- Change the list that shapes of a kind belong to. -/
def modifyKindList (d : Diagram α) (kind : Kind α) (f : List ShapeId → List ShapeId) : Diagram α :=
  match kind with
  | .rawInput | .typedInput _ => { d with inputs := f d.inputs }
  | .step => { d with steps := f d.steps }
  | .output _ => { d with outputs := f d.outputs }
  | .zone .. => d

def nextShape (d : Diagram α) : ShapeId := ⟨d.shapeSlots.size⟩

def nextCable (d : Diagram α) : CableId := ⟨d.cableSlots.size⟩

/-- Put a shape into a slot, without cables, and into no list. -/
def placeShape (d : Diagram α) (s : Shape α) : Diagram α :=
  { d with shapeSlots := d.shapeSlots.push (s.mapMagnets Magnet.clear) }

/-- Put a shape into a slot and into its lists. -/
def addShape (d : Diagram α) (s : Shape α) : Diagram α :=
  let id := d.nextShape
  let placed := d.placeShape s
  { placed with order := placed.order ++ [id] }.modifyKindList s.kind (· ++ [id])

/-- Take a shape out of its slot and its lists. Cables stay as they are. -/
def removeShape (d : Diagram α) (id : ShapeId) : Diagram α :=
  match d.shape? id with
  | none => d
  | some s =>
    { d with
      shapeSlots := d.shapeSlots.remove id.slot
      order := d.order.filter (· ≠ id) }.modifyKindList s.kind (·.filter (· ≠ id))

/-- Put a cable into a slot and into the list of cables. Magnets stay as they are. -/
def addCable (d : Diagram α) (c : Cable α) : Diagram α :=
  { d with
    cableSlots := d.cableSlots.push c
    cableOrder := d.cableOrder ++ [d.nextCable] }

def hook (d : Diagram α) (c : CableId) (t : Terminal) : Diagram α := d.modifyMagnet t (·.hook c)

/-- Take a cable out of its slot, out of the list of cables, and off its magnets. -/
def unplug (d : Diagram α) (id : CableId) (c : Cable α) : Diagram α :=
  c.ends.foldl (fun d t => d.modifyMagnet t (·.unhook id))
    { d with
      cableSlots := d.cableSlots.remove id.slot
      cableOrder := d.cableOrder.filter (· ≠ id) }

/-- Forget the curves of the cables at a shape, because the shape may have moved. -/
def forgetCurves (d : Diagram α) (id : ShapeId) : Diagram α :=
  match d.shape? id with
  | none => d
  | some s => s.cables.foldl (fun d c => d.modifyCable c Cable.forgetCurve) d

/-- Let a shape rest elsewhere, with the same shift from there. -/
def setPosition (d : Diagram α) (id : ShapeId) (centre : Point α) : Diagram α :=
  (d.modifyShape id ({ · with position := centre })).forgetCurves id

variable [Scalar α]

def shiftBy (d : Diagram α) (id : ShapeId) (delta : Point α) : Diagram α :=
  (d.modifyShape id fun s => { s with shift := s.shift + delta }).forgetCurves id

/-- Where a magnet is now. -/
def magnetPosition? (d : Diagram α) (t : Terminal) : Option (Point α) := do
  let s ← d.shape? t.shape
  let m ← (s.magnets t.side)[t.index]?
  return s.magnetPosition m

/-- Let every shape rest where it is now. -/
def settle (d : Diagram α) : Diagram α := { d with shapeSlots := d.shapeSlots.map Shape.settle }

/-- Join two magnets by a new cable. -/
def join (d : Diagram α) (source dest : Terminal) : Diagram α :=
  let id := d.nextCable
  let c := Cable.make source (some dest) ((d.magnetPosition? dest).getD Point.origin)
  ((d.addCable c).hook id source).hook id dest

/-! ## Drawing cables -/

/-- The curve between the ends of a cable as they are now. -/
def currentCurve? (d : Diagram α) (c : Cable α) : Option (Curve α) := do
  let source ← d.magnetPosition? c.source
  let dest ← match c.dest with
    | some t => d.magnetPosition? t
    | none => some c.freeEnd
  return Cable.curveBetween source dest

/-- Draw a cable: the curve drawn last if it still holds, else a new one, which is kept. -/
def draw (id : CableId) : StateM (Diagram α) (Option (Curve α)) := do
  let d ← get
  match d.cable? id with
  | none => return none
  | some c =>
    match c.drawn with
    | some curve => return some curve
    | none =>
      match d.currentCurve? c with
      | none => return none
      | some curve =>
        set (d.modifyCable id ({ · with drawn := some curve }))
        return some curve

end Diagram

end Patchbay
