/-!
# Names of things on the canvas

Shapes and cables are named by the slot they were put in. Slots are never used again, so a name may
outlive what it names, but it never comes to name something else.

A name is meant to take 32 bits, and a slot is a natural number without a bound: diagrams are taken
to have fewer than `2 ^ 32` slots of each kind, those of deleted shapes and cables included. With
more of them, names of 32 bits would repeat, and nothing is said of such diagrams.
-/

namespace Patchbay

/-- The name of a shape. -/
structure ShapeId where
  slot : Nat
deriving DecidableEq, Inhabited

/-- The name of a cable. -/
structure CableId where
  slot : Nat
deriving DecidableEq, Inhabited

/-- The side of a shape: cables arrive on its input side and leave on its output side. -/
inductive Side
  | input
  | output
deriving DecidableEq

/-- The place of a magnet: its shape, its side, and its position on that side. -/
structure Terminal where
  shape : ShapeId
  side : Side
  index : Nat
deriving DecidableEq

/-- Something that can be picked and deleted. -/
inductive Item
  | shape (id : ShapeId)
  | cable (id : CableId)
deriving DecidableEq

/-- A type of data that sockets carry, known by its number. -/
structure Datatype where
  code : UInt32
deriving DecidableEq

end Patchbay
