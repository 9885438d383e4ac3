import Patchbay.Collision
import Patchbay.Layout.Layers
import Patchbay.Layout.Placement

/-!
# Automatic layout

All shapes are placed in layers, the places are fitted to the canvas, and the overlaps that remain
are pushed apart. Nothing is moved before all places are known, so that a diagram without a layout
stays as it is.
-/

namespace Patchbay

namespace Layout

variable {α : Type} [Scalar α]

/-- Move all shapes to their places and let them rest there. -/
def moveTo (placed : Placement α) (d : Diagram α) : Diagram α :=
  placed.foldl (fun d (id, p) => d.setPosition id p) d.settle

/-- Push apart what overlaps, shape by shape. -/
def tidy (around : Surroundings α) (layers : List (List ShapeId)) (d : Diagram α) : Diagram α :=
  (layers.flatten.foldl
    (fun d id => (Collision.resolve around around.settings.relayoutBias id d).diagram) d).settle

/-- Lay a diagram out along its phases. The result is the layers. -/
def auto (around : Surroundings α) (phases : Phases) :
    ExceptT Error (StateM (Diagram α)) (List (List ShapeId)) := do
  let d ← get
  let layers := layersOf d phases
  let placed ← liftExcept (placeLayers d around.settings layers)
  set (tidy around layers (moveTo (fitToCanvas d around.settings placed) d))
  return layers
where
  /-- The result of a computation that does not look at the diagram. -/
  liftExcept {β : Type} (r : Except Error β) : ExceptT Error (StateM (Diagram α)) β :=
    match r with
    | .ok b => pure b
    | .error e => throw e

end Layout

end Patchbay
