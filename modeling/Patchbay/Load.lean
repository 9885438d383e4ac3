import Patchbay.Description.Build
import Patchbay.Description.Describe
import Patchbay.Description.Json
import Patchbay.Json.Message

/-!
# Loading and saving

A canvas is loaded from the JSON text of a description, and saved as one.
-/

namespace Patchbay

/-- Why a canvas cannot be loaded. -/
inductive LoadError
  /-- The text cannot be read from where it is. -/
  | unreadable (reason : String)
  /-- The text is not the JSON text of a description. -/
  | malformed (reason : Json.Reason) (place : Text.Place)
  /-- The description does not denote a diagram. -/
  | refused (error : Diagram.Error)
deriving DecidableEq

/-- The sentence that reports the error. -/
def LoadError.message : LoadError → String
  | .unreadable reason => "failed to read pipeline: " ++ reason
  | .malformed reason place => "invalid pipeline JSON: " ++ reason.messageAt place
  | .refused error => "invalid pipeline: " ++ error.message

namespace Canvas

/-- Load a canvas. -/
def load (s : Settings Double) (text : String) : Except LoadError (Canvas Double) :=
  match Description.ofJson text with
  | .error fault => .error (.malformed fault.reason (fault.place text))
  | .ok p =>
    match p.build s with
    | .error e => .error (.refused e)
    | .ok d => .ok (ofDiagram s d)

/-- Save a canvas whose pipeline is complete. -/
def save (c : Canvas Double) : Except Diagram.Error String := return (← c.describe).toJson

end Canvas

/-- The sentence that says why a canvas cannot be saved. -/
def Diagram.Error.saveMessage (e : Diagram.Error) : String :=
  "pipeline is not submittable: " ++ e.message

end Patchbay
