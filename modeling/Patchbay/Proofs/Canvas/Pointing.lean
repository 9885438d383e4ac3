import Patchbay.Proofs.Canvas.Dropping
import Patchbay.Proofs.Phases.Linear

/-!
# Letting go of a cable over magnets

A point may touch several magnets, of one shape or of different ones. It counts as the foremost of
them (`magnetAt?_eq_some_iff`): shapes that came later are in front, inputs are in front of outputs,
and on one side the magnets are in their order.

A cable that is let go of at the point is tried there and nowhere else, and the magnet is chosen
before anyone asks whether it takes the cable. So a magnet that would take the cable gets it just
when it is the foremost one (`dropped_at_foremost`). Where the output of one step is close to the
input of an earlier one, the cable is removed although it was let go of right on that input
(`discarded_neighbours`).
-/

namespace Patchbay

namespace Canvas

open Diagram

variable {α : Type} {d : Diagram α} {t u : Terminal}

/-! ## Magnets in front of each other -/

/-- Of two magnets at one point the first is the one that is meant. -/
def InFront (d : Diagram α) (t u : Terminal) : Prop :=
  [u.shape, t.shape].Sublist d.order ∨
    t.shape = u.shape ∧ (t.side = .input ∧ u.side = .output ∨ t.side = u.side ∧ t.index < u.index)

theorem InFront.asymm (hnodup : d.order.Nodup) (h : InFront d t u) : ¬ InFront d u t := by
  have hpair : ∀ {a b : ShapeId}, [a, b].Sublist d.order → a ≠ b := fun hab heq =>
    List.not_nodup_pair _ (hnodup.sublist (heq ▸ hab))
  rintro h'
  rcases h with h | ⟨hshape, h⟩ <;> rcases h' with h' | ⟨hshape', h'⟩
  · exact not_pair_sublist_swap hnodup h h'
  · exact hpair h hshape'
  · exact hpair h' hshape
  · rcases h with ⟨hin, hout⟩ | ⟨hside, hlt⟩ <;> rcases h' with ⟨hin', hout'⟩ | ⟨hside', hlt'⟩
    · cases hin.symm.trans hout'
    · cases hin.symm.trans (hside'.symm.trans hout)
    · cases hout'.symm.trans (hside.trans hin')
    · omega

variable [Scalar α] {c : Canvas α} {p : Point α} {id : ShapeId} {s : Shape α} {side : Side}
  {j : Nat}

def Touched (c : Canvas α) (p : Point α) (t : Terminal) : Prop :=
  ∃ q ∈ c.diagram.magnetPosition? t, q.distance p ≤ c.reach

instance (c : Canvas α) (p : Point α) (t : Terminal) : Decidable (c.Touched p t) :=
  inferInstanceAs (Decidable (∃ q ∈ c.diagram.magnetPosition? t, q.distance p ≤ c.reach))

/-- The point touches the magnet, and it is in front of all others that the point touches. -/
structure Foremost (c : Canvas α) (p : Point α) (t : Terminal) : Prop where
  touched : c.Touched p t
  inFront : ∀ u, c.Touched p u → u ≠ t → InFront c.diagram t u

theorem Foremost.unique (hnodup : c.diagram.order.Nodup) (h : c.Foremost p t)
    (h' : c.Foremost p u) : u = t := by
  by_contra hne
  exact (h.inFront u h'.touched hne).asymm hnodup (h'.inFront t h.touched (Ne.symm hne))

/-! ## Magnets of one shape -/

theorem touched_iff (hs : c.diagram.shape? id = some s) : c.Touched p ⟨id, side, j⟩ ↔
    ∃ m, (s.magnets side)[j]? = some m ∧ (s.magnetPosition m).distance p ≤ c.reach := by
  have hpos : c.diagram.magnetPosition? ⟨id, side, j⟩ =
      ((s.magnets side)[j]?).map s.magnetPosition := by
    rw [magnetPosition?, hs]
    exact Option.map_eq_bind.symm
  simp [Touched, hpos]

theorem Touched.exists_shape (h : c.Touched p t) : ∃ s, c.diagram.shape? t.shape = some s := by
  obtain ⟨q, hq, -⟩ := h
  obtain ⟨s, hs, -⟩ := Option.bind_eq_some_iff.1 hq
  exact ⟨s, hs⟩

theorem not_touched_of_magnetOn?_eq_none (hs : c.diagram.shape? id = some s)
    (h : c.magnetOn? p id s side = none) (j : Nat) : ¬ c.Touched p ⟨id, side, j⟩ := by
  rw [touched_iff hs]
  rintro ⟨m, hm, hreach⟩
  have hfar := List.findIdx?_eq_none_iff.1 (Option.map_eq_none_iff.1 h) m (List.mem_of_getElem? hm)
  exact of_decide_eq_false hfar hreach

/-- Of the magnets on a side that the point touches, the first is given. -/
theorem magnetOn?_eq_some (hs : c.diagram.shape? id = some s)
    (h : c.magnetOn? p id s side = some t) : t.shape = id ∧ t.side = side ∧ c.Touched p t ∧
      ∀ k, c.Touched p ⟨id, side, k⟩ → ⟨id, side, k⟩ ≠ t →
        InFront c.diagram t ⟨id, side, k⟩ := by
  obtain ⟨j, hj, rfl⟩ := Option.map_eq_some_iff.1 h
  obtain ⟨hlt, hreach, hfirst⟩ := List.findIdx?_eq_some_iff_getElem.1 hj
  have htouched : c.Touched p ⟨id, side, j⟩ :=
    (touched_iff hs).2 ⟨_, List.getElem?_eq_getElem hlt, of_decide_eq_true hreach⟩
  refine ⟨rfl, rfl, htouched, fun k hk hne => ?_⟩
  have hle : j ≤ k := by
    by_contra hkj
    obtain ⟨m, hm, hclose⟩ := (touched_iff hs).1 hk
    obtain ⟨hlt', rfl⟩ := List.getElem?_eq_some_iff.1 hm
    exact hfirst k (not_le.1 hkj) (decide_eq_true hclose)
  have hjk : j ≠ k := by
    rintro rfl
    exact hne rfl
  exact .inr ⟨rfl, .inr ⟨rfl, lt_of_le_of_ne hle hjk⟩⟩

/-- The magnet of a shape that the point touches, inputs first. -/
def magnetOf? (c : Canvas α) (p : Point α) (id : ShapeId) : Option Terminal := do
  let s ← c.diagram.shape? id
  c.magnetOn? p id s .input <|> c.magnetOn? p id s .output

theorem magnetOf?_of_shape? (hs : c.diagram.shape? id = some s) :
    c.magnetOf? p id = (c.magnetOn? p id s .input).or (c.magnetOn? p id s .output) := by
  rw [magnetOf?, hs]
  exact Option.or_eq_orElse.symm

theorem not_touched_of_magnetOf?_eq_none (h : c.magnetOf? p t.shape = none) : ¬ c.Touched p t := by
  intro ht
  obtain ⟨s, hs⟩ := ht.exists_shape
  rw [magnetOf?_of_shape? hs, Option.or_eq_none_iff] at h
  obtain ⟨id, side, j⟩ := t
  cases side with
  | input => exact not_touched_of_magnetOn?_eq_none hs h.1 j ht
  | output => exact not_touched_of_magnetOn?_eq_none hs h.2 j ht

/-- Of the magnets of a shape that the point touches, the foremost is given. -/
theorem magnetOf?_eq_some (h : c.magnetOf? p id = some t) : t.shape = id ∧ c.Touched p t ∧
    ∀ u, u.shape = id → c.Touched p u → u ≠ t → InFront c.diagram t u := by
  obtain ⟨s, hs, -⟩ := Option.bind_eq_some_iff.1 h
  rw [magnetOf?_of_shape? hs, Option.or_eq_some_iff] at h
  rcases h with hin | ⟨hnone, hout⟩
  · obtain ⟨hshape, hside, htouched, hfirst⟩ := magnetOn?_eq_some hs hin
    refine ⟨hshape, htouched, ?_⟩
    rintro ⟨_, side, k⟩ rfl hu hne
    cases side with
    | input => exact hfirst k hu hne
    | output => exact .inr ⟨hshape, .inl ⟨hside, rfl⟩⟩
  · obtain ⟨hshape, -, htouched, hfirst⟩ := magnetOn?_eq_some hs hout
    refine ⟨hshape, htouched, ?_⟩
    rintro ⟨_, side, k⟩ rfl hu hne
    cases side with
    | input => exact absurd hu (not_touched_of_magnetOn?_eq_none hs hnone k)
    | output => exact hfirst k hu hne

/-! ## The magnet under a point -/

theorem magnetAt?_eq (c : Canvas α) (p : Point α) :
    c.magnetAt? p = c.diagram.order.reverse.findSome? (c.magnetOf? p) := rfl

theorem Touched.mem_order (hd : c.diagram.ShapesListed []) (h : c.Touched p t) :
    t.shape ∈ c.diagram.order := by
  obtain ⟨s, hs⟩ := h.exists_shape
  rw [hd.mem_order, body?_eq_some hs]
  exact ⟨rfl, List.not_mem_nil⟩

theorem foremost_of_magnetAt? (hd : c.diagram.ShapesListed []) (h : c.magnetAt? p = some t) :
    c.Foremost p t := by
  rw [magnetAt?_eq] at h
  obtain ⟨front, id, back, hsplit, hid, hnone⟩ := List.findSome?_eq_some_iff.1 h
  obtain ⟨rfl, htouched, hfirst⟩ := magnetOf?_eq_some hid
  refine ⟨htouched, fun u hu hne => ?_⟩
  have hmem : u.shape ∈ c.diagram.order.reverse := List.mem_reverse.2 (hu.mem_order hd)
  rw [hsplit] at hmem
  rcases List.mem_append.1 hmem with hfront | hmem
  · exact absurd hu (not_touched_of_magnetOf?_eq_none (hnone _ hfront))
  · rcases List.mem_cons.1 hmem with hsame | hback
    · exact hfirst u hsame hu hne
    -- the search goes through the shapes from the last to the first
    · have hpair : [t.shape, u.shape].Sublist c.diagram.order.reverse := by
        rw [hsplit]
        exact ((List.singleton_sublist.2 hback).cons_cons t.shape).trans
          (List.sublist_append_right front _)
      exact .inl (List.reverse_sublist.1 hpair)

theorem not_touched_of_magnetAt?_eq_none (hd : c.diagram.ShapesListed [])
    (h : c.magnetAt? p = none) : ¬ c.Touched p t := by
  intro ht
  rw [magnetAt?_eq] at h
  have hnone := List.findSome?_eq_none_iff.1 h t.shape (List.mem_reverse.2 (ht.mem_order hd))
  exact not_touched_of_magnetOf?_eq_none hnone ht

theorem exists_foremost (hd : c.diagram.ShapesListed []) (h : c.Touched p t) :
    ∃ u, c.Foremost p u := by
  cases hat : c.magnetAt? p with
  | some u => exact ⟨u, foremost_of_magnetAt? hd hat⟩
  | none => exact absurd h (not_touched_of_magnetAt?_eq_none hd hat)

/-- A point is taken for the foremost magnet that it touches. -/
theorem magnetAt?_eq_some_iff (hd : c.diagram.ShapesListed []) :
    c.magnetAt? p = some t ↔ c.Foremost p t := by
  refine ⟨foremost_of_magnetAt? hd, fun h => ?_⟩
  cases hat : c.magnetAt? p with
  | some u => rw [h.unique hd.order_nodup (foremost_of_magnetAt? hd hat)]
  | none => exact absurd h.touched (not_touched_of_magnetAt?_eq_none hd hat)

/-! ## Letting go -/

/-- What comes of trying to land a cable from `s` on a magnet that the point touches. -/
inductive Tried (c : Canvas α) (s : Terminal) (p : Point α) (u : Terminal) : Drop → Prop
  | attached (h : c.diagram.Landable s u) : Tried c s p u (.attached u)
  | created (hside : u.side = .output) (hzone : c.zone.Contains p) :
    Tried c s p u (.created c.diagram.nextShape)
  | discarded (h : ¬ c.diagram.Landable s u) (hzone : u.side = .output → ¬ c.zone.Contains p) :
    Tried c s p u .discarded

theorem Tried.attached_iff {s : Terminal} {outcome : Drop} (h : Tried c s p u outcome)
    (hl : c.diagram.Landable s t) : outcome = .attached t ↔ u = t := by
  constructor
  · rintro rfl
    cases h
    rfl
  · rintro rfl
    cases h with
    | attached => rfl
    | created hside => cases hside.symm.trans hl.side
    | discarded hnot => exact absurd hl hnot

theorem dropsTo_of_foremost {id : CableId} {s : Terminal} (h : c.diagram.Sound [])
    (hid : c.diagram.ends? id = some (s, none)) (hu : c.Foremost p u) :
    ∃ outcome, Tried c s p u outcome ∧ DropsTo (dropCable id p) c id s outcome := by
  have hat : c.magnetAt? p = some u := (magnetAt?_eq_some_iff h.toShapesListed).2 hu
  suffices hgo : ∃ outcome, Tried c s p u outcome ∧ DropsTo (letGo c id s p) c id s outcome by
    obtain ⟨outcome, htried, hgo⟩ := hgo
    exact ⟨outcome, htried, hgo.dropCable hid⟩
  cases hside : u.side with
  | input =>
    rw [letGo_of_input id s hat hside]
    by_cases hl : c.diagram.Landable s u
    · exact ⟨_, .attached hl, dropsTo_landCable h hid hl⟩
    · exact ⟨_, .discarded hl (by simp [hside]), dropsTo_landCable_of_not_landable h hid hl⟩
  | output =>
    have houtput : ∀ t, c.magnetAt? p = some t → t.side = .output := by simp [hat, hside]
    have hl : ¬ c.diagram.Landable s u := fun hl => by cases hside.symm.trans hl.side
    by_cases hzone : c.zone.Contains p
    · rw [letGo_of_zone id s houtput hzone]
      exact ⟨_, .created hside hzone, dropsTo_outputFor h hid p⟩
    · rw [letGo_of_not_zone id s houtput hzone]
      exact ⟨_, .discarded hl fun _ => hzone, dropsTo_discard hid⟩

/-- A loose cable that is let go of over magnets is tried at the foremost one alone. A magnet that
would take the cable gets it just when it is that one. -/
theorem dropped_at_foremost {id : CableId} {s : Terminal} (h : c.Reachable)
    (hid : c.diagram.ends? id = some (s, none)) (ht : c.Touched p t)
    (hl : c.diagram.Landable s t) :
    ∃ u outcome c', c.Foremost p u ∧ Tried c s p u outcome ∧
      (dropCable id p).run c = (.ok outcome, c') ∧ Dropped c.diagram id s outcome c'.diagram ∧
      (outcome = .attached t ↔ c.Foremost p t) := by
  have hs := h.inStep.sound
  obtain ⟨u, hu⟩ := exists_foremost hs.toShapesListed ht
  obtain ⟨outcome, htried, c', hrun, hdropped⟩ := dropsTo_of_foremost hs hid hu
  refine ⟨u, outcome, c', hu, htried, hrun, hdropped, (htried.attached_iff hl).trans ?_⟩
  refine ⟨fun hut => hut ▸ hu, fun hfore => ?_⟩
  exact hfore.unique hs.order_nodup hu

/-- A loose cable, a step, and a later step that has its output just before the input of the first
one. -/
def neighbours : Canvas Double :=
  ofDiagram .standard (Diagram.blank.after
    [.addShape (.rawInput "r" ⟨(100 : Nat), (100 : Nat)⟩),
     .addShape (.step "f" [⟨"x", none⟩] [⟨"y", none⟩] ⟨(300 : Nat), (300 : Nat)⟩),
     .addShape (.step "g" [⟨"x", none⟩] [⟨"y", none⟩] ⟨(215 : Nat), (300 : Nat)⟩),
     .startCable ⟨⟨0⟩, .output, 0⟩])

theorem reachable_neighbours : neighbours.Reachable := by
  refine ⟨.standard, _, ⟨_, ?_, rfl⟩, [], ?_, rfl⟩
  · simp [Change.Built, Shape.Built.rawInput, Shape.Built.step]
  · simp

theorem ends?_neighbours :
    neighbours.diagram.ends? ⟨0⟩ = some (⟨⟨0⟩, .output, 0⟩, none) := by
  decide +kernel

theorem landable_neighbours :
    neighbours.diagram.Landable ⟨⟨0⟩, .output, 0⟩ ⟨⟨1⟩, .input, 0⟩ := by
  have hwired := reachable_neighbours.inStep.sound.toWired
  refine ((Edit.joinFault?_eq_none_iff hwired).1 ?_).2
  exact Edit.joinFault?_of_successors_eq_nil rfl rfl rfl rfl rfl rfl (by decide) rfl

/-- A point inside the first step that only its input is close to. -/
def insidePoint : Point Double := ⟨(268 : Nat), (300 : Nat)⟩

theorem dropped_neighbours :
    (neighbours.Reachable ∧ neighbours.diagram.ends? ⟨0⟩ = some (⟨⟨0⟩, .output, 0⟩, none) ∧
      neighbours.Touched insidePoint ⟨⟨1⟩, .input, 0⟩ ∧
      neighbours.diagram.Landable ⟨⟨0⟩, .output, 0⟩ ⟨⟨1⟩, .input, 0⟩) ∧
    ∃ c', (dropCable ⟨0⟩ insidePoint).run neighbours =
      (.ok (.attached ⟨⟨1⟩, .input, 0⟩), c') ∧
      c'.diagram.ends? ⟨0⟩ = some (⟨⟨0⟩, .output, 0⟩, some ⟨⟨1⟩, .input, 0⟩) := by
  have htouched : neighbours.Touched insidePoint ⟨⟨1⟩, .input, 0⟩ := by decide +kernel
  have hat : neighbours.magnetAt? insidePoint = some ⟨⟨1⟩, .input, 0⟩ := by decide +kernel
  have hfore := (magnetAt?_eq_some_iff reachable_neighbours.inStep.sound.toShapesListed).1 hat
  obtain ⟨u, outcome, c', -, -, hrun, hdropped, hiff⟩ :=
    dropped_at_foremost reachable_neighbours ends?_neighbours htouched landable_neighbours
  obtain rfl := hiff.2 hfore
  exact ⟨⟨reachable_neighbours, ends?_neighbours, htouched, landable_neighbours⟩, c', hrun,
    hdropped.fate.2⟩

def inputPoint : Point Double := ⟨(260 : Nat), (300 : Nat)⟩

/-- On the input itself the cable is removed, because the output of the later step is in front. -/
theorem discarded_neighbours :
    (neighbours.Reachable ∧ neighbours.diagram.ends? ⟨0⟩ = some (⟨⟨0⟩, .output, 0⟩, none) ∧
      neighbours.diagram.magnetPosition? ⟨⟨1⟩, .input, 0⟩ = some inputPoint ∧
      neighbours.Touched inputPoint ⟨⟨1⟩, .input, 0⟩ ∧
      neighbours.diagram.Landable ⟨⟨0⟩, .output, 0⟩ ⟨⟨1⟩, .input, 0⟩) ∧
    ∃ c', (dropCable ⟨0⟩ inputPoint).run neighbours = (.ok .discarded, c') := by
  have hplace : neighbours.diagram.magnetPosition? ⟨⟨1⟩, .input, 0⟩ = some inputPoint := by
    decide +kernel
  have htouched : neighbours.Touched inputPoint ⟨⟨1⟩, .input, 0⟩ := by decide +kernel
  have hat : neighbours.magnetAt? inputPoint = some ⟨⟨2⟩, .output, 0⟩ := by decide +kernel
  have hzone : ¬ neighbours.zone.Contains inputPoint := by decide +kernel
  have hgo := letGo_of_not_zone ⟨0⟩ ⟨⟨0⟩, .output, 0⟩ (by simp [hat]) hzone
  have hdiscard := dropsTo_discard ends?_neighbours
  rw [← hgo] at hdiscard
  obtain ⟨c', hrun, -⟩ := hdiscard.dropCable ends?_neighbours
  exact ⟨⟨reachable_neighbours, ends?_neighbours, hplace, htouched, landable_neighbours⟩, c', hrun⟩

end Canvas

end Patchbay
