import Patchbay.Diagram.Edit
import Patchbay.Diagram.Neighbours

/-!
# Joining magnets

A cable runs from an output magnet to an input magnet that has no other cable, whose datatype it
suits, and from which it does not close a loop. It can be made at once, or started loose, dragged,
and landed.
-/

namespace Patchbay

namespace Edit

variable {α : Type} [Scalar α]

/-- Check that a cable may join two magnets. -/
def checkJoin (source dest : Terminal) : Edit α Unit := do
  if source.side ≠ .output ∨ dest.side ≠ .input then throw .wrongDirection
  let d ← get
  let some m := d.magnet? source | throw (.unknownMagnet source)
  let some n := d.magnet? dest | throw (.unknownMagnet dest)
  if n.isConnected then throw (.occupied n.label)
  unless m.accepts n do throw (.incompatible m.label n.label)
  if source.shape = dest.shape ∨ d.reaches dest.shape source.shape then
    throw (.wouldLoop (← requireShape source.shape).label (← requireShape dest.shape).label)

/-- Join an output magnet and an input magnet by a new cable. -/
def connect (source dest : Terminal) : Edit α CableId := do
  checkJoin source dest
  let d ← get
  set (d.join source dest)
  return d.nextCable

/-- Start a loose cable at an output magnet, with its end still there. -/
def startCable (source : Terminal) : Edit α CableId := do
  if source.side ≠ .output then throw .wrongDirection
  let d ← get
  let some start := d.magnetPosition? source | throw (.unknownMagnet source)
  set ((d.addCable (.make source none start)).hook d.nextCable source)
  return d.nextCable

def moveEnd (id : CableId) (p : Point α) : Edit α Unit := do
  let _ ← requireCable id
  modify (·.modifyCable id fun c => { c with freeEnd := p }.forgetCurve)

/-- Land a loose cable on an input magnet. -/
def attach (id : CableId) (dest : Terminal) : Edit α Unit := do
  let c ← requireCable id
  if c.isAttached then throw (.alreadyAttached id)
  checkJoin c.source dest
  modify fun d =>
    let landed := (d.magnetPosition? dest).getD Point.origin
    (d.modifyCable id fun c =>
      { c with dest := some dest, freeEnd := landed }.forgetCurve).hook id dest

end Edit

end Patchbay
