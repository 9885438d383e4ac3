/-!
# Why there is no layout

The reasons for which there is no order of execution or no layout. Callers keep the layout they
have.
-/

namespace Patchbay

namespace Layout

/-- Why an order or a layout does not exist. -/
inductive Error
  /-- These steps wait for cables that are missing. -/
  | indeterminate (unplaced : List String)
  /-- Phases were formed for more rounds than there are steps. -/
  | roundLimit (limit : Nat)
  /-- The layer has no finite middle. -/
  | noCentre (layer : Nat)
deriving DecidableEq

/-- The sentence that reports the error. -/
def Error.message : Error → String
  | .indeterminate unplaced =>
    "execution order is indeterminate: " ++ ", ".intercalate unplaced ++ " cannot be placed"
  | .roundLimit limit => s!"phase ordering gave up after {limit} rounds"
  | .noCentre layer => s!"layer {layer} has no finite centre"

end Layout

end Patchbay
