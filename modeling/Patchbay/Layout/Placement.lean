import Patchbay.Diagram.Basic
import Patchbay.Geometry.Isometric
import Patchbay.Layout.Error
import Patchbay.Settings

/-!
# Placing layers

In the isometric view, layers follow each other along the depth axis, and the shapes of a layer are
spread evenly along the other axis, around the middle of the magnets that feed the layer. The
result is then scaled and moved to fill the canvas within its margins.
-/

namespace Patchbay

/-- Places of shapes. -/
abbrev Placement (α : Type) := List (ShapeId × Point α)

namespace Placement

variable {α : Type}

def place? (p : Placement α) (id : ShapeId) : Option (Point α) :=
  (p.find? fun (other, _) => other = id).map (·.2)

def put (p : Placement α) (id : ShapeId) (at_ : Point α) : Placement α :=
  p.filter (fun (other, _) => other ≠ id) ++ [(id, at_)]

def mapPlaces (f : Point α → Point α) (p : Placement α) : Placement α :=
  p.map fun (id, q) => (id, f q)

end Placement

namespace Layout

variable {α : Type} [Scalar α]

/-! ## The isometric view -/

/-- The isometric coordinates, along the layer, of the placed output magnets that feed a layer. -/
def feedingCoordinates (d : Diagram α) (placed : Placement α) (layer : List ShapeId) : List α :=
  (layer.filterMap d.shape?).flatMap fun s =>
    (s.inputs.flatMap (·.cables)).filterMap fun c => do
      let cable ← d.cable? c
      let centre ← placed.place? cable.source.shape
      let m ← d.magnet? cable.source
      return Isometric.along (Isometric.canvas centre + m.offset)

def mean (xs : List α) : α := xs.foldl (· + ·) 0 / (xs.length : α)

/-- Place the layers from the given one on. The first layer is centred at zero. -/
def placeFrom (d : Diagram α) (settings : Settings α) :
    Nat → List (List ShapeId) → Placement α → Except Error (Placement α)
  | _, [], placed => .ok placed
  | index, layer :: rest, placed =>
    let centre := if index = 0 then 0 else mean (feedingCoordinates d placed layer)
    if Scalar.Finite centre then
      let depth := (index : α) * settings.layerSpacing
      let halfSpan := Scalar.half ((layer.length : α) - 1)
      let placed := layer.zipIdx.foldl
        (fun placed (id, slot) =>
          placed.put id ⟨centre + ((slot : α) - halfSpan) * settings.nodeSpacing, depth⟩)
        placed
      placeFrom d settings (index + 1) rest placed
    else .error (.noCentre index)

/-- Isometric places for all shapes of the layers. -/
def placeLayers (d : Diagram α) (settings : Settings α) (layers : List (List ShapeId)) :
    Except Error (Placement α) :=
  placeFrom d settings 0 layers []

/-! ## Fitting the canvas -/

/-- The smallest box around the outlines of placed shapes. -/
def extent? (d : Diagram α) (placed : Placement α) : Option (Box α) :=
  let boxes := placed.filterMap fun (id, c) => do
    let s ← d.shape? id
    let (width, height) := s.size
    return (⟨c.x - Scalar.half width, c.y - Scalar.half height, width, height⟩ : Box α)
  match boxes with
  | [] => none
  | b :: rest => some (rest.foldl Box.union b)

/-- The factor from the used to the available length, unless hardly anything is used. -/
def ratio? (available used : α) : Option α :=
  if Scalar.tiny < used then some (available / used) else none

/-- The lesser of two factors, where they exist. -/
def lesserRatio? : Option α → Option α → Option α
  | some a, some b => some (Scalar.lesser a b)
  | some a, none => some a
  | none, b => b

/-- A usable factor: one where there is none or it is not finite. -/
def usableRatio (r : Option α) : α := (r.filter fun a => Scalar.Finite a).getD 1

/-- The canvas within its margins. -/
def target (settings : Settings α) : Box α :=
  ⟨settings.margin, settings.margin,
   settings.width - (2 : Nat) * settings.margin, settings.height - (2 : Nat) * settings.margin⟩

/-- Scale and move isometric places so that their extent fills the canvas within its margins. -/
def fitToCanvas (d : Diagram α) (settings : Settings α) (placed : Placement α) : Placement α :=
  let flat := placed.mapPlaces Isometric.canvas
  match extent? d flat with
  | none => flat
  | some extent =>
    let room := target settings
    let rx := ratio? room.width extent.width
    let ry := ratio? room.height extent.height
    let both := lesserRatio? rx ry
    let sx := usableRatio (if settings.keepAspect then both else rx)
    let sy := usableRatio (if settings.keepAspect then both else ry)
    let source := extent.center
    let goal := room.center
    flat.mapPlaces fun p =>
      ⟨goal.x + (p.x - source.x) * sx, goal.y + (p.y - source.y) * sy⟩

end Layout

end Patchbay
