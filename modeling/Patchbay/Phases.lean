import Patchbay.Diagram.Neighbours
import Patchbay.Geometry.Isometric
import Patchbay.Layout.Error
import Patchbay.Sorting.Pivot

/-!
# Phases

The order of execution of the steps, in phases. A step is ready once each of its input magnets has
a cable and every step that feeds it stands in an earlier phase, and each phase takes all steps that
are ready. Steps that share a phase may run in any order as far as the cables say, and are put in
the order in which they are read on the canvas.
-/

namespace Patchbay

/-- Steps in phases, first phase first. -/
structure Phases where
  layers : List (List ShapeId)
deriving DecidableEq

namespace Phases

variable {α : Type}

def none : Phases := ⟨[]⟩

def count (p : Phases) : Nat := p.layers.length

def isEmpty (p : Phases) : Bool := p.layers.isEmpty

/-- Some phase has more than one step. -/
def isAmbiguous (p : Phases) : Bool := p.layers.any fun layer => 1 < layer.length

def phaseOf? (p : Phases) (id : ShapeId) : Option Nat := p.layers.findIdx? fun layer => id ∈ layer

def flatten (p : Phases) : List ShapeId := p.layers.flatten

/-- Every input magnet of the step has a cable, and every step that feeds it is placed. -/
def isReady (d : Diagram α) (placed : List ShapeId) (id : ShapeId) : Bool :=
  (d.feeders id).all fun
    | some source => !(d.shape? source).any (·.isStep) || source ∈ placed
    | .none => false

/-- Form phases of the remaining steps for the given number of rounds. -/
def form (d : Diagram α) (limit : Nat) :
    Nat → List ShapeId → List ShapeId → Except Layout.Error (List (List ShapeId))
  | _, _, [] => .ok []
  | 0, _, _ => .error (.roundLimit limit)
  | rounds + 1, placed, remaining =>
    let (layer, rest) := remaining.partition (isReady d placed)
    if layer.isEmpty then
      .error (.indeterminate (rest.filterMap fun id => (d.shape? id).map (·.label)))
    else (form d limit rounds (placed ++ layer) rest).map (layer :: ·)

variable [Scalar α]

/-- The order in which two shapes are read. A shape that is gone is read with any other. -/
def compareReading (d : Diagram α) (a b : ShapeId) : Ordering :=
  match d.shape? a, d.shape? b with
  | some s, some t => Isometric.readingOrder s.centre t.centre
  | _, _ => .eq

/-- Put the steps of every shared phase, all of which are there, into the order in which they are
read. -/
def sortShared (d : Diagram α) (p : Phases) : Phases :=
  ⟨p.layers.map fun layer =>
    if 1 < layer.length then stableSort (compareReading d) layer else layer⟩

/-- Put the steps of every shared phase into the order in which they are read, although some of them
may be gone since the phases were formed. The comparison is no order then, and there may be no
outcome. -/
def sortStale? (d : Diagram α) (p : Phases) : Option Phases := do
  let layers ← p.layers.mapM (Sorting.sort? (compareReading d))
  return ⟨layers⟩

/-- The phases of all steps of a diagram. -/
def compute (d : Diagram α) : Except Layout.Error Phases :=
  let limit := d.steps.length + 1
  (form d limit limit [] d.steps).map fun layers => sortShared d ⟨layers⟩

end Phases

end Patchbay
