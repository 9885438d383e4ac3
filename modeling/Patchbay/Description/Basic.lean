import Patchbay.Shape.Id

/-!
# Descriptions of pipelines

A pipeline as it is exchanged with the outside world: its inputs, its steps with the cables into
them, and its outputs with the cable into each. Cables name what they join, inputs and outputs carry
an index that says in which order they come, and steps carry a number that cables refer to. Places
are shares of the width and height of the canvas, so that a description holds for any canvas.
-/

namespace Patchbay

namespace Description

/-- An input of the pipeline. -/
structure Input (α : Type) where
  name : String
  index : Nat
  x : α
  y : α
  datatype : Option Datatype
deriving DecidableEq

/-- A socket of a step. -/
structure Socket where
  name : String
  index : Nat
  datatype : Option Datatype
deriving DecidableEq

/-- A cable into a step: the number of the step that it leaves, or zero for an input of the
pipeline, the name of the socket or input that it leaves, and the name of the socket where it
lands. -/
structure CableIn where
  sourceStep : Nat
  sourceName : String
  destName : String
deriving DecidableEq

/-- A step of the pipeline, with the cables that land on it. -/
structure Step (α : Type) where
  name : String
  number : Nat
  x : α
  y : α
  inputs : List Socket
  outputs : List Socket
  cables : List CableIn
deriving DecidableEq

/-- An output of the pipeline, with where its cable comes from. -/
structure Output (α : Type) where
  name : String
  index : Nat
  sourceStep : Nat
  sourceName : String
  x : α
  y : α
  datatype : Option Datatype
deriving DecidableEq

end Description

/-- The description of a pipeline. -/
structure Description (α : Type) where
  inputs : List (Description.Input α)
  steps : List (Description.Step α)
  outputs : List (Description.Output α)
deriving DecidableEq

end Patchbay
