import Patchbay.Geometry.Outline
import Patchbay.Shape.Basic

/-!
# Outlines of shapes

Steps and the output zone are rectangles, typed inputs are prisms, and raw inputs and outputs are
cylinders. Two shapes overlap when a probe point on the outline of one lies in the other.
-/

namespace Patchbay

namespace Shape

variable {α : Type} [Scalar α]

/-- The square root of one half, to the precision of a double. -/
def sinEighth : α := 0.7071067811865476

/-- The corners of the outline, if it is a polygon. -/
def polygon? (s : Shape α) : Option (List (Point α)) :=
  let c := s.centre
  match s.kind with
  | .typedInput _ =>
    let hw := Scalar.half prismWidth
    let hh := Scalar.half prismHeight
    some
      [⟨c.x - hw, c.y - hh + prismBevel⟩,
       ⟨c.x, c.y - hh⟩,
       ⟨c.x + hw, c.y - hh + prismBevel⟩,
       ⟨c.x + hw, c.y + hh - prismBevel⟩,
       ⟨c.x, c.y + hh⟩,
       ⟨c.x - hw, c.y + hh - prismBevel⟩]
  | .step | .zone .. =>
    let b := s.bounds
    some [⟨b.x, b.y⟩, ⟨b.right, b.y⟩, ⟨b.right, b.bottom⟩, ⟨b.x, b.bottom⟩]
  | .rawInput | .output _ => none

/-- The corners of a polygon, each followed by the middle of the edge that starts there. -/
def cornersAndMiddles (polygon : List (Point α)) : List (Point α) :=
  (polygon.zip (polygon.tail ++ polygon.head?.toList)).flatMap fun (a, b) =>
    [a, a.lerp b (Scalar.half 1)]

/-- Ten points around a cylinder. -/
def cylinderProbes (c : Point α) : List (Point α) :=
  let r := cylinderRadius
  let top := c.y - Scalar.half cylinderBody
  let bottom := c.y + Scalar.half cylinderBody
  let diagX := r * sinEighth
  let diagY := cylinderCap * sinEighth
  [⟨c.x, top - cylinderCap⟩,
   ⟨c.x + diagX, top - diagY⟩,
   ⟨c.x + r, top⟩,
   ⟨c.x + r, bottom⟩,
   ⟨c.x + diagX, bottom + diagY⟩,
   ⟨c.x, bottom + cylinderCap⟩,
   ⟨c.x - diagX, bottom + diagY⟩,
   ⟨c.x - r, bottom⟩,
   ⟨c.x - r, top⟩,
   ⟨c.x - diagX, top - diagY⟩]

/-- The points of the outline that collisions are detected with. -/
def probes (s : Shape α) : List (Point α) :=
  match s.polygon? with
  | some polygon => cornersAndMiddles polygon
  | none => cylinderProbes s.centre

/-- A cylinder around `c` holds the point: its body or one of its caps does. -/
def CylinderContains (c p : Point α) : Prop :=
  let top : Point α := ⟨c.x, c.y - Scalar.half cylinderBody⟩
  let bottom : Point α := ⟨c.x, c.y + Scalar.half cylinderBody⟩
  let body : Box α := ⟨c.x - cylinderRadius, top.y, (2 : Nat) * cylinderRadius, cylinderBody⟩
  body.Contains p ∨ Outline.EllipseContains top cylinderRadius cylinderCap p ∨
    Outline.EllipseContains bottom cylinderRadius cylinderCap p

instance (c p : Point α) : Decidable (CylinderContains c p) :=
  inferInstanceAs (Decidable (Box.Contains _ _ ∨ _ ∨ _))

/-- The shape holds the point. -/
def Contains (s : Shape α) (p : Point α) : Prop :=
  match s.kind with
  | .rawInput | .output _ => CylinderContains s.centre p
  | .step | .zone .. => s.bounds.Contains p
  | .typedInput _ => Outline.PolygonContains (s.polygon?.getD []) p

instance (s : Shape α) (p : Point α) : Decidable (s.Contains p) := by
  unfold Contains; split <;> infer_instance

/-- A probe point of one of the shapes lies in the other. -/
def Overlaps (a b : Shape α) : Prop :=
  (∃ p ∈ a.probes, b.Contains p) ∨ ∃ p ∈ b.probes, a.Contains p

instance (a b : Shape α) : Decidable (a.Overlaps b) := inferInstanceAs (Decidable (_ ∨ _))

end Shape

end Patchbay
