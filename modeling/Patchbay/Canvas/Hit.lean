import Patchbay.Canvas.Basic
import Patchbay.Curve.March
import Patchbay.Curve.Nearest

/-!
# Pointing at things

What lies under a point of the canvas. Of several things, the one that came last is on top.
-/

namespace Patchbay

namespace Canvas

variable {α : Type} [Scalar α]

def magnetRadius : α := (5 : Nat)

/-- The topmost shape that holds the point. -/
def shapeAt? (c : Canvas α) (p : Point α) : Option ShapeId :=
  c.diagram.order.reverse.find? fun id => (c.diagram.shape? id).any fun s => s.Contains p

/-- The distance from a magnet at which a point still touches it. -/
def reach (c : Canvas α) : α := magnetRadius + c.settings.hitPadding

/-- The first magnet on a side of the shape that the point touches. -/
def magnetOn? (c : Canvas α) (p : Point α) (id : ShapeId) (s : Shape α) (side : Side) :
    Option Terminal :=
  ((s.magnets side).findIdx? fun m => (s.magnetPosition m).distance p ≤ c.reach).map
    (⟨id, side, ·⟩)

/-- The magnet that the point touches, on the topmost shape that has one. Input magnets come
first. -/
def magnetAt? (c : Canvas α) (p : Point α) : Option Terminal :=
  c.diagram.order.reverse.findSome? fun id => do
    let s ← c.diagram.shape? id
    c.magnetOn? p id s .input <|> c.magnetOn? p id s .output

/-- Draw a cable. -/
def draw (id : CableId) : StateM (Canvas α) (Option (Curve α)) := do
  let c ← get
  let (curve, d) := (Diagram.draw id).run c.diagram
  set { c with diagram := d }
  return curve

/-- The first of some cables that the point touches. The cables before it are drawn. -/
def firstTouched (p : Point α) : List CableId → StateM (Canvas α) (Option CableId)
  | [] => return none
  | id :: rest => do
    let padding := (← get).settings.hitPadding
    match ← draw id with
    | some curve =>
      if (Curve.approach p curve).distance < padding then return some id else firstTouched p rest
    | none => firstTouched p rest

/-- The topmost cable that the point touches. -/
def cableAt (p : Point α) : StateM (Canvas α) (Option CableId) := do
  firstTouched p (← get).diagram.cableOrder.reverse

/-- The point halfway along a cable, where its label goes. -/
def midpoint (id : CableId) : StateM (Canvas α) (Option (Point α)) := do
  match ← draw id with
  | none => return none
  | some curve =>
    return some (Curve.placeAlong curve 0 (Scalar.half (Curve.arcLength curve))).point

end Canvas

end Patchbay
