import Patchbay.Geometry.Point

/-!
# The isometric view

A view of the canvas turned by a twelfth of a turn, with one axis up to the right and a depth axis
down to the right:

    along = x · tan 30° − y        x = (along + depth) · cos 30°
    depth = x · tan 30° + y        y = (depth − along) / 2

Layers of a layout run along the depth axis. Shapes are read in this view, depth first.
-/

namespace Patchbay

namespace Isometric

variable {α : Type} [Scalar α]

/-- The tangent of 30°, to the precision of a double. -/
def tan30 : α := 0.5773502691896258

/-- The cosine of 30°, to the precision of a double. -/
def cos30 : α := 0.8660254037844386

/-- The coordinate along a layer. -/
def along (p : Point α) : α := tan30 * p.x - p.y

/-- The coordinate across the layers. -/
def depth (p : Point α) : α := tan30 * p.x + p.y

/-- A point of the canvas as it is seen. -/
def view (p : Point α) : Point α := ⟨along p, depth p⟩

/-- The point of the canvas that is seen at `v`. -/
def canvas (v : Point α) : Point α := ⟨(v.x + v.y) * cos30, Scalar.half (v.y - v.x)⟩

/-- The order in which shapes are read: by depth, then along the layer. -/
def readingOrder (p q : Point α) : Ordering :=
  (Scalar.totalOrder (depth p) (depth q)).then (Scalar.totalOrder (along p) (along q))

end Isometric

end Patchbay
