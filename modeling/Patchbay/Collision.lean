import Patchbay.Diagram.Basic
import Patchbay.Settings
import Patchbay.Shape.Outline

/-!
# Collisions

Overlapping shapes are pushed apart. Each overlap of the moved shape is answered with a push of
fixed length along the line between the two centres, and the search starts again, until nothing
overlaps or too many pushes have been made. Shapes that were pushed aside then get their turn, those
that they push aside after them, down to a given depth.

A push that would carry a shape over the edge of the canvas is cut short, and the other shape makes
up for it.
-/

namespace Patchbay

/-- The surroundings in which collisions are resolved. -/
structure Surroundings (α : Type) where
  settings : Settings α
  /-- A shape outside the diagram that everything is kept clear of. -/
  obstacle : Option (Shape α)

namespace Collision

variable {α : Type}

/-- What a resolution did. -/
structure Report where
  /-- The number of pushes, those of shapes that were pushed aside included. -/
  pushes : Nat
  /-- The shapes that were pushed aside, in the order of their first push. -/
  displaced : List ShapeId
  /-- A limit on pushes or on depth was met. -/
  capped : Bool
deriving DecidableEq

/-- A diagram on the way to rest, and what has been done to it. -/
structure Progress (α : Type) where
  diagram : Diagram α
  report : Report

variable [Scalar α]

/-! ## Pushes -/

/-- A push of one step from `obstacle` towards `mover`. -/
def pushAway (settings : Settings α) (mover obstacle : Point α) : Point α :=
  let delta := mover - obstacle
  let length := delta.length
  if length < Scalar.tiny then ⟨settings.pushStep, 0⟩ else delta * (settings.pushStep / length)

/-- How far the stretch of the given start and size must be moved to lie between `lo` and `hi`. One
that is too long is put in the middle. -/
def intoRange (start size lo hi : α) : α :=
  if hi - lo ≤ size then Scalar.half (lo + hi) - (start + Scalar.half size)
  else if start < lo then lo - start
  else if hi < start + size then hi - (start + size)
  else 0

/-- How far the shape, once pushed, must be moved back to lie on the canvas. -/
def overflow (settings : Settings α) (s : Shape α) (push : Point α) : Point α :=
  let b := s.bounds
  let canvas := settings.bounds
  ⟨intoRange (b.x + push.x) b.width canvas.x canvas.right,
   intoRange (b.y + push.y) b.height canvas.y canvas.bottom⟩

/-- The push away from something that does not move. If the edge of the canvas would swallow it, or
the two centres coincide, the push goes towards the middle of the canvas instead. -/
def pushOff (settings : Settings α) (s : Shape α) (obstacle : Point α) : Point α :=
  let push := pushAway settings s.centre obstacle
  let blocked := (push + overflow settings s push).length < Scalar.half settings.pushStep
  if blocked ∨ (s.centre - obstacle).length < Scalar.tiny then
    let inward := pushAway settings settings.bounds.center obstacle
    if inward.Same Point.origin then push else inward
  else push

/-- How far a shape of the diagram, once pushed, must be moved back to lie on the canvas. -/
def overflowAt (settings : Settings α) (d : Diagram α) (id : ShapeId) (push : Point α) : Point α :=
  (d.shape? id).elim Point.origin (overflow settings · push)

/-- Push the mover alone. -/
def pushOne (settings : Settings α) (d : Diagram α) (mover : ShapeId) (push : Point α) :
    Diagram α :=
  d.shiftBy mover (push + overflowAt settings d mover push)

/-- Push the mover and another shape. What either of them loses at the edge of the canvas is added
to the push of the other. -/
def pushBoth (settings : Settings α) (d : Diagram α) (mover : ShapeId) (push : Point α)
    (other : ShapeId) (otherPush : Point α) : Diagram α :=
  let lost := overflowAt settings d mover push
  let push := push + lost
  let otherPush := otherPush + lost
  let lost := overflowAt settings d other otherPush
  let otherPush := otherPush + lost
  let push := push + lost
  let push := push + overflowAt settings d mover push
  (d.shiftBy other otherPush).shiftBy mover push

/-! ## Resolving -/

/-- A shape on its way, with the shapes that it has pushed aside so far and that have not been
pushed aside before. -/
structure Pass (α : Type) where
  progress : Progress α
  followups : List ShapeId

/-- The pass with one more push, which led to the diagram. -/
def Pass.pushed (p : Pass α) (d : Diagram α) : Pass α :=
  { p with progress :=
    ⟨d, { p.progress.report with pushes := p.progress.report.pushes + 1 }⟩ }

/-- The pass with one more shape that was pushed aside. -/
def Pass.aside (p : Pass α) (id : ShapeId) : Pass α :=
  { progress := { p.progress with
      report := { p.progress.report with displaced := p.progress.report.displaced ++ [id] } }
    followups := p.followups ++ [id] }

/-- Answer the first overlap of the mover: with the obstacle, else with the shapes in their order.
There is none to answer once the mover is clear of everything, or if it cannot move. `root` is the
shape that the whole resolution is for. -/
def answer? (around : Surroundings α) (bias : α) (root mover : ShapeId) (p : Pass α) :
    Option (Pass α) := do
  let settings := around.settings
  let d := p.progress.diagram
  let s ← d.shape? mover
  if s.isFixed then failure
  match around.obstacle.filter (s.Overlaps ·) with
  | some obstacle =>
    return p.pushed (pushOne settings d mover (pushOff settings s obstacle.centre))
  | none =>
    let (id, other) ← d.shapes.find? fun (id, other) => id ≠ mover ∧ s.Overlaps other
    if other.isFixed then
      return p.pushed (pushOne settings d mover (pushOff settings s other.centre))
    else
      let push := pushAway settings s.centre other.centre
      let next := p.pushed (pushBoth settings d mover (push * (1 - bias)) id (push * (-bias)))
      if 0 < bias ∧ id ∉ root :: p.progress.report.displaced then return next.aside id
      else return next

/-- The progress with the note that a limit was met. -/
def Progress.cap (p : Progress α) : Progress α :=
  { p with report := { p.report with capped := true } }

/-- Answer overlaps of the mover until there are none, or the given number has been answered. -/
def clear (around : Surroundings α) (bias : α) (root mover : ShapeId) : Nat → Pass α → Pass α
  | 0, p => { p with progress := p.progress.cap }
  | pushes + 1, p =>
    match answer? around bias root mover p with
    | none => p
    | some next => clear around bias root mover pushes next

/-- Clear the mover, and then the shapes that it has pushed aside, down to the given depth. -/
def clearAll (around : Surroundings α) (bias : α) (root : ShapeId) :
    Nat → ShapeId → Progress α → Progress α
  | 0, mover, p =>
    let pass := clear around bias root mover around.settings.maxPushes ⟨p, []⟩
    if pass.followups.isEmpty then pass.progress else pass.progress.cap
  | depth + 1, mover, p =>
    let pass := clear around bias root mover around.settings.maxPushes ⟨p, []⟩
    pass.followups.foldl (fun p other => clearAll around bias root depth other p) pass.progress

/-- Push a shape and everything in its way apart. `bias` is the share of each push that the other
shape takes; pushes against something that does not move go to the mover alone. -/
def resolve (around : Surroundings α) (bias : α) (mover : ShapeId) (d : Diagram α) : Progress α :=
  clearAll around bias mover around.settings.maxFollowupDepth mover ⟨d, ⟨0, [], false⟩⟩

end Collision

end Patchbay
