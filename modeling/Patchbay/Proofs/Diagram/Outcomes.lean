import Patchbay.Proofs.Diagram.Views
import Patchbay.Proofs.Running

/-!
# What edits give

An edit is an action that may be refused. Here each edit is turned into what it gives: the diagram
before it decides whether it is refused and why, and what the diagram is afterwards. Most edits
check first and change afterwards, so a refusal leaves the diagram as it was.

Deleting is `cut`, a cable at a time. Only replacing a step has no equation here, since it could be
refused in the middle.
-/

namespace Patchbay

namespace Edit

open Running

variable {α : Type}

/-! ## Looking up -/

theorem run_requireShape (id : ShapeId) (d : Diagram α) : (requireShape id).run d =
    match d.shape? id with
      | some s => (.ok s, d)
      | none => (.error (.unknownShape id), d) := by
  change (match d.shape? id with | some s => _ | none => _ : Edit α _).run d = _
  cases d.shape? id <;> rfl

theorem run_requireCable (id : CableId) (d : Diagram α) : (requireCable id).run d =
    match d.cable? id with
      | some c => (.ok c, d)
      | none => (.error (.unknownCable id), d) := by
  change (match d.cable? id with | some c => _ | none => _ : Edit α _).run d = _
  cases d.cable? id <;> rfl

/-- A change of a shape that is there cannot be refused. -/
theorem run_requireShape_then (id : ShapeId) (f : Diagram α → Diagram α) (d : Diagram α) :
    (do let _ ← requireShape id; modify f : Edit α PUnit).run d =
      match d.shape? id with
        | some _ => (.ok ⟨⟩, f d)
        | none => (.error (.unknownShape id), d) := by
  rw [run_bind, run_requireShape]
  cases d.shape? id <;> rfl

/-! ## Adding and moving shapes -/

theorem run_setPosition (id : ShapeId) (p : Point α) (d : Diagram α) :
    (setPosition id p).run d =
      match d.shape? id with
        | some _ => (.ok ⟨⟩, d.setPosition id p)
        | none => (.error (.unknownShape id), d) :=
  run_requireShape_then id _ d

theorem run_shiftBy [Scalar α] (id : ShapeId) (p : Point α) (d : Diagram α) :
    (shiftBy id p).run d =
      match d.shape? id with
        | some _ => (.ok ⟨⟩, d.shiftBy id p)
        | none => (.error (.unknownShape id), d) :=
  run_requireShape_then id _ d

end Edit

/-! ## Deleting -/

namespace Diagram

variable {α : Type}

/-- The output that a cable led to, if it has no cable any more. -/
def orphan? (d : Diagram α) (dest : Option Terminal) : Option ShapeId := do
  let t ← dest
  let s ← d.shape? t.shape
  if s.isOutput ∧ ¬ s.inputs.any (·.isConnected) then some t.shape else none

theorem orphan?_of_live {d : Diagram α} {t : Terminal} {s : Shape α}
    (h : d.shape? t.shape = some s) : d.orphan? (some t) =
      if s.isOutput ∧ ¬ s.inputs.any (·.isConnected) then some t.shape else none := by
  simp [orphan?, h]

theorem orphan?_of_gone {d : Diagram α} {t : Terminal} (h : d.shape? t.shape = none) :
    d.orphan? (some t) = none := by
  simp [orphan?, h]

/-- The diagram without a cable, and without the output that it leaves without a cable. -/
def cut (d : Diagram α) (id : CableId) (c : Cable α) : Diagram α :=
  match (d.unplug id c).orphan? c.dest with
  | some i => (d.unplug id c).removeShape i
  | none => d.unplug id c

/-- The diagram after cutting a cable, if it is still there. -/
def cutIfThere (d : Diagram α) (id : CableId) : Diagram α :=
  match d.cable? id with
  | some c => d.cut id c
  | none => d

end Diagram

namespace Edit

variable {α : Type}

open Diagram Running

theorem run_detach (id : CableId) (d : Diagram α) : (detach id).run d =
    match d.cable? id with
      | some c => (.ok c, d.unplug id c)
      | none => (.error (.unknownCable id), d) := by
  cases h : d.cable? id with
  | none => exact run_bind_error (by rw [run_requireCable, h]) _
  | some c => exact run_bind_ok (by rw [run_requireCable, h]) _

theorem run_deleteCable (id : CableId) (d : Diagram α) : (deleteCable id).run d =
    match d.cable? id with
      | some c => (.ok (), d.cut id c)
      | none => (.error (.unknownCable id), d) := by
  cases h : d.cable? id with
  | none => exact run_bind_error (by rw [run_detach, h]) _
  | some c =>
    refine (run_bind_ok (by rw [run_detach, h]) _).trans ?_
    simp only [cut]
    cases c.dest with
    | none => rfl
    | some t =>
      refine (run_get_bind _ _).trans ?_
      cases hs : (d.unplug id c).shape? t.shape with
      | none => rw [orphan?_of_gone hs, run_pure]
      | some s =>
        rw [orphan?_of_live hs]
        dsimp only
        by_cases ho : s.isOutput ∧ ¬ s.inputs.any (·.isConnected)
        · rw [if_pos ho, if_pos ho, run_modify]
        · rw [if_neg ho, if_neg ho, run_pure]

/-- Deleting a shape deletes its cables one by one, and none of that can be refused. -/
theorem run_deleteShape (id : ShapeId) (d : Diagram α) : (deleteShape id).run d =
    match d.shape? id with
      | some s => (.ok (), (s.cables.foldl cutIfThere d).removeShape id)
      | none => (.error (.unknownShape id), d) := by
  have hround : ∀ (d : Diagram α) (c : CableId),
      (do if ((← get).cable? c).isSome then deleteCable c : Edit α Unit).run d =
        (.ok (), d.cutIfThere c) := by
    intro d c
    refine (run_get_bind _ _).trans ?_
    cases hc : d.cable? c with
    | none => simp [hc, cutIfThere, run_pure]
    | some k =>
      simp only [hc, cutIfThere]
      exact (run_deleteCable c d).trans (by rw [hc])
  cases h : d.shape? id with
  | none => exact run_bind_error (by rw [run_requireShape, h]) _
  | some s =>
    refine (run_bind_ok (by rw [run_requireShape, h]) _).trans ?_
    refine (run_bind_ok (run_forM_of_ok hround _ _) _).trans ?_
    rfl

/-! ## Moving the end of a cable -/

theorem run_moveEnd (id : CableId) (p : Point α) (d : Diagram α) : (moveEnd id p).run d =
    match d.cable? id with
      | some _ => (.ok (), d.modifyCable id fun c => { c with freeEnd := p }.forgetCurve)
      | none => (.error (.unknownCable id), d) := by
  cases h : d.cable? id with
  | none => exact run_bind_error (by rw [run_requireCable, h]) _
  | some c => exact run_bind_ok (by rw [run_requireCable, h]) _

/-! ## Joining -/

def labelOf (d : Diagram α) (id : ShapeId) : String := ((d.shape? id).map (·.label)).getD ""

/-- The first reason why two magnets may not be joined. -/
def joinFault? (d : Diagram α) (source dest : Terminal) : Option Diagram.Error :=
  if source.side ≠ .output ∨ dest.side ≠ .input then some .wrongDirection
  else match d.magnet? source, d.magnet? dest with
    | none, _ => some (.unknownMagnet source)
    | some _, none => some (.unknownMagnet dest)
    | some m, some n =>
      if n.isConnected then some (.occupied n.label)
      else if !m.accepts n then some (.incompatible m.label n.label)
      else if source.shape = dest.shape ∨ d.reaches dest.shape source.shape then
        some (.wouldLoop (labelOf d source.shape) (labelOf d dest.shape))
      else none

theorem shape?_of_magnet? {d : Diagram α} {t : Terminal} {m : Magnet α}
    (h : d.magnet? t = some m) : ∃ s, d.shape? t.shape = some s ∧ labelOf d t.shape = s.label := by
  obtain ⟨s, hs, -⟩ := Option.bind_eq_some_iff.1 h
  exact ⟨s, hs, by simp [labelOf, hs]⟩

theorem run_checkJoin (s t : Terminal) (d : Diagram α) : (checkJoin s t).run d =
    match joinFault? d s t with
      | some e => (.error e, d)
      | none => (.ok (), d) := by
  unfold checkJoin joinFault?
  by_cases hside : s.side ≠ .output ∨ t.side ≠ .input
  · rw [if_pos hside, if_pos hside]
    rfl
  rw [if_neg hside, if_neg hside]
  refine (run_get_bind _ _).trans ?_
  cases hm : d.magnet? s with
  | none => rfl
  | some m =>
    cases hn : d.magnet? t with
    | none => rfl
    | some n =>
      dsimp only
      by_cases hc : n.isConnected
      · rw [if_pos hc, if_pos hc]
        rfl
      rw [if_neg hc, if_neg hc]
      by_cases ha : m.accepts n
      · rw [if_pos ha]
        simp only [ha, Bool.not_true, Bool.false_eq_true, if_false]
        by_cases hl : s.shape = t.shape ∨ d.reaches t.shape s.shape
        · rw [if_pos hl, if_pos hl]
          obtain ⟨a, hsa, hla⟩ := shape?_of_magnet? hm
          obtain ⟨b, htb, hlb⟩ := shape?_of_magnet? hn
          refine (run_bind_ok (b := a) (by rw [run_requireShape, hsa]) _).trans ?_
          refine (run_bind_ok (b := b) (by rw [run_requireShape, htb]) _).trans ?_
          rw [hla, hlb]
          rfl
        · rw [if_neg hl, if_neg hl]
          rfl
      · rw [if_neg ha]
        simp only [ha, Bool.not_false, if_true]
        rfl

variable [Scalar α]

theorem run_connect (s t : Terminal) (d : Diagram α) : (connect s t).run d =
    match joinFault? d s t with
      | some e => (.error e, d)
      | none => (.ok d.nextCable, d.join s t) := by
  cases h : joinFault? d s t with
  | some e => exact run_bind_error (by rw [run_checkJoin, h]) _
  | none => exact run_bind_ok (by rw [run_checkJoin, h]) _

theorem run_startCable (s : Terminal) (d : Diagram α) : (startCable s).run d =
    if s.side ≠ .output then (.error .wrongDirection, d)
    else match d.magnetPosition? s with
      | some p => (.ok d.nextCable, d.start s p)
      | none => (.error (.unknownMagnet s), d) := by
  unfold startCable
  by_cases hside : s.side ≠ .output
  · rw [if_pos hside, if_pos hside]
    rfl
  rw [if_neg hside, if_neg hside]
  refine (run_get_bind _ _).trans ?_
  cases d.magnetPosition? s <;> rfl

theorem run_attach (id : CableId) (t : Terminal) (d : Diagram α) : (attach id t).run d =
    match d.cable? id with
      | none => (.error (.unknownCable id), d)
      | some c =>
        if c.isAttached then (.error (.alreadyAttached id), d)
        else match joinFault? d c.source t with
          | some e => (.error e, d)
          | none => (.ok (), d.land id t) := by
  cases h : d.cable? id with
  | none => exact run_bind_error (by rw [run_requireCable, h]) _
  | some c =>
    refine (run_bind_ok (b := c) (by rw [run_requireCable, h]) _).trans ?_
    dsimp only
    by_cases hc : c.isAttached
    · rw [if_pos hc, if_pos hc]
      rfl
    rw [if_neg hc, if_neg hc]
    cases hf : joinFault? d c.source t with
    | some e => exact run_bind_error (by rw [run_checkJoin, hf]) _
    | none => exact run_bind_ok (by rw [run_checkJoin, hf]) _

theorem run_attach_of_loose {id : CableId} {s : Terminal} {d : Diagram α}
    (h : d.ends? id = some (s, none)) (t : Terminal) : (attach id t).run d =
      match joinFault? d s t with
        | some e => (.error e, d)
        | none => (.ok (), d.land id t) := by
  obtain ⟨c, hc, rfl, hdest⟩ := exists_cable_of_ends? h
  have hloose : ¬ c.isAttached := by simp [Cable.isAttached, hdest]
  simp only [run_attach, hc, if_neg hloose]

end Edit

end Patchbay
