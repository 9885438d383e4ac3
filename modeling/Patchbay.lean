import Patchbay.Decimal.Shortest
import Patchbay.Geometry.Box
import Patchbay.Geometry.Outline
import Patchbay.Geometry.Isometric
import Patchbay.Curve.March
import Patchbay.Curve.Nearest
import Patchbay.Shape.Outline
import Patchbay.Cable
import Patchbay.Diagram.Join
import Patchbay.Diagram.Replace
import Patchbay.Diagram.Integrity
import Patchbay.Layout.Auto
import Patchbay.Canvas.Actions
import Patchbay.Diagram.Change
import Patchbay.Canvas.Gesture
import Patchbay.Description.Build
import Patchbay.Description.Describe
import Patchbay.Description.Json
import Patchbay.Report
import Patchbay.Main
import Patchbay.Proofs.Description.Consistent
import Patchbay.Proofs.Canvas.Fresh
import Patchbay.Proofs.Canvas.Reading
import Patchbay.Proofs.Phases.Linear
import Patchbay.Proofs.Diagram.Submittable
import Patchbay.Proofs.Diagram.Landing
import Patchbay.Proofs.Diagram.Deleting
import Patchbay.Proofs.Layout.Downwards
import Patchbay.Proofs.Description.Json
import Patchbay.Proofs.Description.Normal
import Patchbay.Proofs.Diagram.Drawing
import Patchbay.Proofs.Diagram.Replaced
import Patchbay.Proofs.Collision.Turns
import Patchbay.Proofs.Collision.Limits
import Patchbay.Proofs.Collision.Edges
import Patchbay.Proofs.Shape.Rectangles
import Patchbay.Proofs.Layout.Queue
import Patchbay.Proofs.Canvas.Pointing
import Patchbay.Proofs.Layout.Feeding
import Patchbay.Proofs.Layout.Finite
import Patchbay.Proofs.Layout.Fitting
import Patchbay.Proofs.Curve.Diminishing
import Patchbay.Proofs.Curve.Marching
import Patchbay.Proofs.Report
import Patchbay.Proofs.Diagram.Loops
import Patchbay.Proofs.Canvas.Labels
import Patchbay.Proofs.Arithmetic
import Patchbay.Proofs.Magnitudes
