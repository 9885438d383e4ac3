import Patchbay.Geometry.Box

/-!
# Settings

The numbers that the canvas can be tuned by, their standard values, and what makes them usable.
-/

namespace Patchbay

/-- The tunable numbers of a canvas. -/
structure Settings (α : Type) where
  /-- The size of the canvas. -/
  width : α
  height : α
  /-- The width of the output zone as a share of the width of the canvas. -/
  zoneFraction : α
  /-- The height of the output zone as a share of its width. -/
  zoneAspect : α
  /-- How far apart two colliding shapes are pushed at a time. -/
  pushStep : α
  /-- The share of a push that the other shape takes during a drag. -/
  dragBias : α
  /-- The share of a push that the other shape takes after a layout. -/
  relayoutBias : α
  /-- How many pushes one shape may cause before it is left as it is. -/
  maxPushes : Nat
  /-- How far collisions that follow from collisions are pursued. -/
  maxFollowupDepth : Nat
  /-- The distance of the shapes in a layer. -/
  nodeSpacing : α
  /-- The distance of the layers. -/
  layerSpacing : α
  /-- The border that a layout keeps clear. -/
  margin : α
  /-- A layout scales both axes alike. -/
  keepAspect : Bool
  /-- The distance from a magnet or a cable that still counts as touching it. -/
  hitPadding : α

namespace Settings

variable {α : Type} [Scalar α]

/-- The standard settings. -/
def standard : Settings α where
  width := (800 : Nat)
  height := (600 : Nat)
  zoneFraction := 0.2
  zoneAspect := 0.5
  pushStep := (5 : Nat)
  dragBias := 0.75
  relayoutBias := 0.5
  maxPushes := 500
  maxFollowupDepth := 32
  nodeSpacing := (150 : Nat)
  layerSpacing := (120 : Nat)
  margin := (40 : Nat)
  keepAspect := true
  hitPadding := (5 : Nat)

def bounds (s : Settings α) : Box α := ⟨0, 0, s.width, s.height⟩

/-- The output zone, in the top right corner of the canvas. -/
def zoneBounds (s : Settings α) : Box α :=
  let width := s.width * s.zoneFraction
  ⟨s.width - width, 0, width, width * s.zoneAspect⟩

/-! ## Usable settings -/

/-- What makes settings unusable. -/
inductive Fault
  | size
  | zoneFraction
  | dragBias
  | relayoutBias
  | pushStep
  | margin
deriving DecidableEq

/-- The key that the fault is reported under. -/
def Fault.key : Fault → String
  | .size => "canvas"
  | .zoneFraction => "output_zone_fraction"
  | .dragBias => "drag_bias"
  | .relayoutBias => "relayout_bias"
  | .pushStep => "step"
  | .margin => "margin"

/-- The reason that is reported. -/
def Fault.reason : Fault → String
  | .size => "width and height must be positive"
  | .zoneFraction | .dragBias | .relayoutBias => "must lie between 0 and 1"
  | .pushStep => "must be positive"
  | .margin => "leaves no room on the canvas"

def Fault.message (f : Fault) : String :=
  "invalid config value for '" ++ f.key ++ "': " ++ f.reason

/-- Check that the settings are usable, and report the first fault. -/
def validate (s : Settings α) : Except Fault Unit := do
  unless 0 < s.width ∧ 0 < s.height do throw .size
  unless Scalar.Between 0 1 s.zoneFraction do throw .zoneFraction
  unless Scalar.Between 0 1 s.dragBias do throw .dragBias
  unless Scalar.Between 0 1 s.relayoutBias do throw .relayoutBias
  unless 0 < s.pushStep do throw .pushStep
  if Scalar.lesser s.width s.height ≤ (2 : Nat) * s.margin then throw .margin

end Settings

end Patchbay
