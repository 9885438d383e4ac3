import Patchbay.Shape.Id

/-!
# What can be wrong with a diagram

The reasons for which a change is refused, a name is not found, or a diagram is not a complete
pipeline, with the sentence that each is reported in.
-/

namespace Patchbay

def ShapeId.text (id : ShapeId) : String := s!"ShapeId({id.slot})"

def CableId.text (id : CableId) : String := s!"ConnectorId({id.slot})"

def Side.text : Side → String
  | .input => "Input"
  | .output => "Output"

def Terminal.text (t : Terminal) : String :=
  "MagnetRef \x7b shape: " ++ t.shape.text ++ ", side: " ++ t.side.text ++
    s!", index: {t.index} \x7d"

namespace Diagram

/-- Why a diagram is refused or cannot be changed as asked. -/
inductive Error
  /-- There are no shapes. -/
  | empty
  | noInputs
  | noSteps
  | noOutputs
  /-- Some shapes are neither inputs, steps nor outputs. -/
  | strayShapes (total inputs steps outputs : Nat)
  | looseInput (label : String)
  | looseOutput (label : String)
  /-- A magnet of a step has no cable. -/
  | looseMagnet (step magnet : String)
  | ambiguousLabel (label : String) (count : Nat)
  | noShapeNamed (name : String)
  | noMagnetNamed (shape magnet : String)
  | unknownShape (id : ShapeId)
  | unknownCable (id : CableId)
  | alreadyAttached (id : CableId)
  | unknownMagnet (place : Terminal)
  | notAStep (label : String)
  /-- The cable would not run from an output magnet to an input magnet. -/
  | wrongDirection
  /-- The datatypes of the magnets differ. -/
  | incompatible (source dest : String)
  /-- The cable would close a loop of cables. -/
  | wouldLoop (source dest : String)
  /-- The input magnet has a cable already. -/
  | occupied (magnet : String)
deriving DecidableEq

/-- The sentence that reports the error. -/
def Error.message : Error → String
  | .empty => "pipeline is empty"
  | .noInputs => "pipeline has no inputs"
  | .noSteps => "pipeline has no steps"
  | .noOutputs => "pipeline has no outputs"
  | .strayShapes total inputs steps outputs =>
    s!"shape count mismatch: {total} shapes but {inputs} inputs, {steps} steps and " ++
      s!"{outputs} outputs"
  | .looseInput label => s!"input '{label}' is not connected to anything"
  | .looseOutput label => s!"output '{label}' is not connected to anything"
  | .looseMagnet step magnet => s!"step '{step}' has an unconnected magnet '{magnet}'"
  | .ambiguousLabel label count => s!"label '{label}' is used {count} times"
  | .noShapeNamed name => s!"no shape named '{name}'"
  | .noMagnetNamed shape magnet => s!"shape '{shape}' has no magnet '{magnet}'"
  | .unknownShape id => "shape " ++ id.text ++ " does not exist"
  | .unknownCable id => "connector " ++ id.text ++ " does not exist"
  | .alreadyAttached id => "connector " ++ id.text ++ " is already attached"
  | .unknownMagnet place => "magnet " ++ place.text ++ " does not exist"
  | .notAStep label => s!"shape '{label}' is not a step"
  | .wrongDirection => "cables must run from an output magnet to an input magnet"
  | .incompatible source dest => s!"magnet '{source}' cannot feed '{dest}': datatypes differ"
  | .wouldLoop source dest => s!"a cable from '{source}' to '{dest}' would close a loop"
  | .occupied magnet => s!"input magnet '{magnet}' already has a cable"

end Diagram

end Patchbay
