import Patchbay.Layout.Auto
import Patchbay.Proofs.Collision
import Patchbay.Proofs.Running

/-!
# Moving shapes

Collisions and layouts shift shapes, put them elsewhere and settle them, and do nothing else: what
these changes keep, they keep (`auto_keeps`). So the diagram that comes out is `Alike` to the one
that went in.
-/

namespace Patchbay

open Diagram Running

variable {α : Type} [Scalar α]

theorem Collision.alike_resolve (around : Surroundings α) (bias : α) (mover : ShapeId)
    (d : Diagram α) : Alike d (resolve around bias mover d).diagram :=
  resolve_keeps (fun _ id delta h => h.trans (alike_shiftBy _ id delta)) (.refl d)

namespace Layout

variable {P : Diagram α → Prop}

theorem run_auto (around : Surroundings α) (phases : Phases) (d : Diagram α) :
    (auto around phases).run d =
      match placeLayers d around.settings (layersOf d phases) with
        | .ok placed => (.ok (layersOf d phases), tidy around (layersOf d phases)
            (moveTo (fitToCanvas d around.settings placed) d))
        | .error e => (.error e, d) := by
  refine (run_get_bind _ d).trans ?_
  dsimp only
  cases placeLayers d around.settings (layersOf d phases) <;> rfl

/-- What moving shapes keeps, laying a diagram out keeps. -/
theorem auto_keeps (hshift : ∀ d id delta, P d → P (d.shiftBy id delta))
    (hput : ∀ d id p, P d → P (d.setPosition id p)) (hsettle : ∀ d, P d → P d.settle)
    (around : Surroundings α) (phases : Phases) {d : Diagram α} (h : P d) :
    P ((auto around phases).run d).2 := by
  rw [run_auto]
  split
  · refine hsettle _ (foldl_keeps (fun d id hd => Collision.resolve_keeps hshift hd) _ ?_)
    exact foldl_keeps (fun d x hd => hput d x.1 x.2 hd) _ (hsettle d h)
  · exact h

/-- Laying a diagram out moves its shapes, or leaves them where they are. -/
theorem alike_auto (around : Surroundings α) (phases : Phases) (d : Diagram α) :
    Alike d ((auto around phases).run d).2 :=
  auto_keeps (fun _ id delta h => h.trans (alike_shiftBy _ id delta))
    (fun _ id p h => h.trans (alike_setPosition _ id p)) (fun _ h => h.trans (alike_settle _))
    around phases (.refl d)

/-- A layout that is refused leaves the diagram as it was. -/
theorem run_auto_error {around : Surroundings α} {phases : Phases} {d d' : Diagram α}
    {e : Layout.Error} (h : (auto around phases).run d = (.error e, d')) : d' = d := by
  rw [run_auto] at h
  split at h
  · cases h
  · exact (Prod.mk.inj h).2.symm

end Layout

end Patchbay
