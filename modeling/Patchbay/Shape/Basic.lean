import Patchbay.Geometry.Box
import Patchbay.Shape.Id

/-!
# Shapes

What stands on the canvas: the inputs of a pipeline, its steps, its outputs, and the zone where
cables are dropped to make outputs. A shape carries magnets, to which cables are attached: input
magnets in a column on its left edge and output magnets on its right edge.
-/

namespace Patchbay

/-- A magnet before it is mounted on a shape. A socket without a datatype takes any data. -/
structure Socket where
  label : String
  datatype : Option Datatype
deriving DecidableEq

/-- An attachment point of a shape, with the cables attached to it in the order of their arrival. -/
structure Magnet (α : Type) where
  label : String
  datatype : Option Datatype
  side : Side
  /-- The position as seen from the centre of the shape. -/
  offset : Point α
  cables : List CableId

namespace Magnet

variable {α : Type}

def isConnected (m : Magnet α) : Bool := !m.cables.isEmpty

/-- A cable from this magnet may land on `dest`: their datatypes agree, or one of them has none. -/
def accepts (m dest : Magnet α) : Bool :=
  match m.datatype, dest.datatype with
  | some a, some b => a = b
  | _, _ => true

def clear (m : Magnet α) : Magnet α := { m with cables := [] }

def hook (m : Magnet α) (c : CableId) : Magnet α := { m with cables := m.cables ++ [c] }

def unhook (m : Magnet α) (c : CableId) : Magnet α := { m with cables := m.cables.filter (· ≠ c) }

end Magnet

/-- The kinds of shapes. -/
inductive Kind (α : Type)
  /-- An input of the pipeline without a datatype. -/
  | rawInput
  /-- An input of the pipeline with a datatype. -/
  | typedInput (datatype : Datatype)
  /-- A step, which turns its inputs into its outputs. -/
  | step
  /-- An output of the pipeline. -/
  | output (datatype : Option Datatype)
  /-- The zone of outputs. -/
  | zone (width height : α)

/-- A shape on the canvas. -/
structure Shape (α : Type) where
  kind : Kind α
  label : String
  /-- Where the centre rests. -/
  position : Point α
  /-- How far the shape has been moved from there by a drag or by collisions. -/
  shift : Point α
  inputs : List (Magnet α)
  outputs : List (Magnet α)

namespace Shape

variable {α : Type}

/-! ## Kinds -/

/-- An input of the pipeline. -/
def isInput (s : Shape α) : Bool :=
  match s.kind with
  | .rawInput | .typedInput _ => true
  | _ => false

/-- A step. Only steps take part in the order of execution. -/
def isStep (s : Shape α) : Bool :=
  match s.kind with
  | .step => true
  | _ => false

/-- An output of the pipeline. -/
def isOutput (s : Shape α) : Bool :=
  match s.kind with
  | .output _ => true
  | _ => false

/-- The shape keeps its place in collisions. -/
def isFixed (s : Shape α) : Bool :=
  match s.kind with
  | .zone .. => true
  | _ => false

/-! ## Magnets -/

/-- The magnets of one side, from top to bottom. -/
def magnets (s : Shape α) : Side → List (Magnet α)
  | .input => s.inputs
  | .output => s.outputs

/-- All magnets, inputs first. -/
def allMagnets (s : Shape α) : List (Magnet α) := s.inputs ++ s.outputs

/-- The cables attached to the shape, magnet by magnet. -/
def cables (s : Shape α) : List CableId := s.allMagnets.flatMap (·.cables)

def isFullyConnected (s : Shape α) : Bool := s.allMagnets.all (·.isConnected)

def mapMagnets (f : Magnet α → Magnet α) (s : Shape α) : Shape α :=
  { s with inputs := s.inputs.map f, outputs := s.outputs.map f }

/-- Change one magnet, if there is one at the index. -/
def modifyMagnet (s : Shape α) (side : Side) (index : Nat) (f : Magnet α → Magnet α) : Shape α :=
  match side with
  | .input => { s with inputs := s.inputs.modify index f }
  | .output => { s with outputs := s.outputs.modify index f }

variable [Scalar α]

/-! ## Places -/

/-- Where the centre is now. -/
def centre (s : Shape α) : Point α := s.position + s.shift

def settle (s : Shape α) : Shape α := { s with position := s.centre, shift := Point.origin }

def magnetPosition (s : Shape α) (m : Magnet α) : Point α := s.centre + m.offset

/-! ## Sizes -/

/-- The half axis of a cylinder across the canvas. -/
def cylinderRadius : α := (20 : Nat)

/-- The height of a cylinder between its caps. -/
def cylinderBody : α := (25 : Nat)

/-- The half axis of a cap down the canvas. -/
def cylinderCap : α := Scalar.half cylinderRadius

def prismWidth : α := (45 : Nat)

def prismHeight : α := (40 : Nat)

/-- How far the corners of a prism at its sides lie below its tip. -/
def prismBevel : α := (10 : Nat)

def stepWidth : α := (80 : Nat)

/-- The border above and below the magnets of a step. -/
def stepPadding : α := (10 : Nat)

def magnetSpacing : α := (18 : Nat)

/-- The width and height of a shape with the given numbers of magnets. -/
def sizeFor (kind : Kind α) (inputs outputs : Nat) : α × α :=
  match kind with
  | .rawInput | .output _ =>
    ((2 : Nat) * cylinderRadius, cylinderBody + (2 : Nat) * cylinderCap)
  | .typedInput _ => (prismWidth, prismHeight)
  | .step =>
    (stepWidth, (max (max inputs outputs) 1 : Nat) * magnetSpacing + (2 : Nat) * stepPadding)
  | .zone width height => (width, height)

def size (s : Shape α) : α × α := sizeFor s.kind s.inputs.length s.outputs.length

def bounds (s : Shape α) : Box α :=
  let (width, height) := s.size
  ⟨s.centre.x - Scalar.half width, s.centre.y - Scalar.half height, width, height⟩

/-! ## Building shapes -/

/-- Mount sockets on one side of a shape of the given size: a single one in the middle, several from
the top down. -/
def mount (sockets : List Socket) (side : Side) (width height : α) : List (Magnet α) :=
  let x := match side with
    | .input => Scalar.half (-width)
    | .output => Scalar.half width
  sockets.zipIdx.map fun (socket, i) =>
    let y := if sockets.length = 1 then 0
      else Scalar.half (-height) + stepPadding + magnetSpacing * ((i : α) + Scalar.half 1)
    ⟨socket.label, socket.datatype, side, ⟨x, y⟩, []⟩

/-- A shape at rest. -/
def make (kind : Kind α) (label : String) (centre : Point α) (inputs outputs : List Socket) :
    Shape α :=
  let (width, height) := sizeFor kind inputs.length outputs.length
  { kind, label, position := centre, shift := Point.origin
    inputs := mount inputs .input width height
    outputs := mount outputs .output width height }

/-- An input without a datatype. -/
def rawInput (label : String) (centre : Point α) : Shape α :=
  make .rawInput label centre [] [⟨label, none⟩]

/-- An input with a datatype. -/
def typedInput (label : String) (datatype : Datatype) (centre : Point α) : Shape α :=
  make (.typedInput datatype) label centre [] [⟨label, some datatype⟩]

def step (label : String) (inputs outputs : List Socket) (centre : Point α) : Shape α :=
  make .step label centre inputs outputs

def output (label : String) (datatype : Option Datatype) (centre : Point α) : Shape α :=
  make (.output datatype) label centre [⟨label, datatype⟩] []

def zone (bounds : Box α) : Shape α :=
  make (.zone bounds.width bounds.height) "output zone" bounds.center [] []

end Shape

end Patchbay
