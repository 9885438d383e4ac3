import Patchbay.Geometry.Point

/-!
# Boxes

Rectangles with sides along the axes: outlines of shapes, the canvas, the output zone.
-/

namespace Patchbay

/-- A rectangle, given by its top left corner and its size. -/
structure Box (α : Type) where
  x : α
  y : α
  width : α
  height : α

namespace Box

variable {α : Type} [Scalar α]

def right (b : Box α) : α := b.x + b.width

def bottom (b : Box α) : α := b.y + b.height

def center (b : Box α) : Point α :=
  ⟨b.x + Scalar.half b.width, b.y + Scalar.half b.height⟩

/-- The point lies in the box. The edges belong to it, so that boxes that touch collide. -/
def Contains (b : Box α) (p : Point α) : Prop :=
  Scalar.Between b.x b.right p.x ∧ Scalar.Between b.y b.bottom p.y

instance (b : Box α) (p : Point α) : Decidable (b.Contains p) :=
  inferInstanceAs (Decidable (_ ∧ _))

/-- The smallest box that covers both. -/
def union (a b : Box α) : Box α :=
  let x := Scalar.lesser a.x b.x
  let y := Scalar.lesser a.y b.y
  ⟨x, y, Scalar.greater a.right b.right - x, Scalar.greater a.bottom b.bottom - y⟩

end Box

end Patchbay
