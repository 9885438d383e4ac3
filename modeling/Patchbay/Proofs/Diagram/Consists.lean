import Patchbay.Proofs.Diagram.Paths
import Patchbay.Proofs.Diagram.Sound
import Patchbay.Proofs.Pairing

/-!
# What a diagram consists of

A diagram from which nothing has been taken away is known by two lists: its shapes and its cables,
in the order in which they came. `Consists` says so, adding a shape or a cable is adding an entry,
and whether two magnets may be joined can be read off from the lists (`joinFault?_eq_none`).
-/

namespace Patchbay

namespace Diagram

open Relation Running

variable {α : Type} {d : Diagram α} {bodies : List (Shape.Body α)}
  {wires : List (Terminal × Terminal)}

/-! ## Loops that add shapes -/

def addShapes (d : Diagram α) (shapes : List (Shape α)) : Diagram α :=
  shapes.foldl Diagram.addShape d

theorem addShapes_append (d : Diagram α) (shapes more : List (Shape α)) :
    d.addShapes (shapes ++ more) = (d.addShapes shapes).addShapes more :=
  List.foldl_append

theorem slot_nextShape_addShape (d : Diagram α) (s : Shape α) :
    (d.addShape s).nextShape.slot = d.nextShape.slot + 1 := by
  simp [Diagram.nextShape, shapeSlots_addShape, placeShape]

theorem slot_nextShape_addShapes (d : Diagram α) (shapes : List (Shape α)) :
    (d.addShapes shapes).nextShape.slot = d.nextShape.slot + shapes.length := by
  induction shapes generalizing d with
  | nil => rfl
  | cons s shapes ih =>
    rw [List.length_cons, Nat.add_comm shapes.length, ← Nat.add_assoc, ← slot_nextShape_addShape d s]
    exact ih (d.addShape s)

/-- A loop that adds a shape for each entry of a list, and keeps a key with its name. -/
theorem run_mapM_addShape {β κ : Type} (key : β → κ) (shape : β → Shape α) (xs : List β)
    (d : Diagram α) :
    (xs.mapM fun x => do
        let id ← Edit.addShape (shape x)
        return (key x, id) : Edit α (List (κ × ShapeId))).run d =
      (.ok ((xs.zipIdx d.nextShape.slot).map fun (x, i) => (key x, ⟨i⟩)),
        d.addShapes (xs.map shape)) := by
  induction xs generalizing d with
  | nil => rfl
  | cons x xs ih =>
    have hfirst : (do let id ← Edit.addShape (shape x); return (key x, id) :
        Edit α (κ × ShapeId)).run d = (.ok (key x, d.nextShape), d.addShape (shape x)) := rfl
    rw [List.mapM_cons, run_bind_ok hfirst, run_bind_ok (ih _), run_pure,
      slot_nextShape_addShape]
    rfl

/-! ## Shapes and cables in the order in which they came -/

variable [Scalar α]

/-- The diagram consists of these shapes and of cables from and to these places. -/
structure Consists (d : Diagram α) (bodies : List (Shape.Body α))
    (wires : List (Terminal × Terminal)) : Prop where
  sound : d.Sound []
  body : ∀ i, d.body? i = bodies[i.slot]?
  ends : ∀ c, d.ends? c = wires[c.slot]?.map fun w => (w.1, some w.2)
  nextShape : d.nextShape = ⟨bodies.length⟩
  nextCable : d.nextCable = ⟨wires.length⟩

theorem consists_blank : (blank : Diagram α).Consists [] [] where
  sound := sound_blank
  body i := by simp [blank, body?, shape?]
  ends c := by simp [blank, ends?, cable?]
  nextShape := rfl
  nextCable := rfl

/-! ## Adding shapes -/

theorem Consists.addShape (h : d.Consists bodies wires) {s : Shape α} (hs : s.body.Conforms) :
    (d.addShape s).Consists (bodies ++ [s.body]) wires where
  sound := h.sound.addShape hs
  body i := by
    have hi : i = d.nextShape ↔ i.slot = bodies.length := by
      rw [h.nextShape, ← ShapeId.slot_inj]
    simp only [body?_addShape, body?_placeShape, getElem?_concat, hi, h.body]
  ends c := by rw [ends?_addShape, h.ends]
  nextShape := by
    have hslot := slot_nextShape_addShape d s
    rw [h.nextShape] at hslot
    rw [← ShapeId.slot_inj, hslot, List.length_append, List.length_singleton]
  nextCable := by
    have hsize : d.nextCable = (d.addShape s).nextCable := by
      simp [Diagram.nextCable, Diagram.addShape, placeShape]
    rw [← hsize, h.nextCable]

theorem Consists.addShapes (h : d.Consists bodies wires) {shapes : List (Shape α)}
    (hs : ∀ s ∈ shapes, s.body.Conforms) :
    (d.addShapes shapes).Consists (bodies ++ shapes.map Shape.body) wires := by
  induction shapes generalizing d bodies with
  | nil => simpa [Diagram.addShapes] using h
  | cons s shapes ih =>
    have hrest := ih (h.addShape (hs s List.mem_cons_self))
      fun t ht => hs t (List.mem_cons_of_mem s ht)
    rw [List.append_assoc] at hrest
    exact hrest

/-! ## Adding cables -/

theorem nextShape_join (d : Diagram α) (s t : Terminal) : (d.join s t).nextShape = d.nextShape := by
  simp [Diagram.nextShape, Diagram.join, hook, modifyMagnet, modifyShape, addCable]

theorem Consists.join (h : d.Consists bodies wires) {s t : Terminal} (hside : s.side = .output)
    (hl : d.Landable s t) : (d.join s t).Consists bodies (wires ++ [(s, t)]) where
  sound := h.sound.join hside hl
  body i := by rw [body?_join, h.body]
  ends c := by
    have hc : c = d.nextCable ↔ c.slot = wires.length := by
      rw [h.nextCable, ← CableId.slot_inj]
    rw [ends?_join, getElem?_concat, h.ends]
    by_cases hlast : c.slot = wires.length
    · rw [if_pos (hc.2 hlast), if_pos hlast]
      rfl
    · rw [if_neg (mt hc.1 hlast), if_neg hlast]
  nextShape := (nextShape_join d s t).trans h.nextShape
  nextCable := by
    have hsize : d.cableSlots.size = wires.length := congrArg CableId.slot h.nextCable
    simp [Diagram.nextCable, Diagram.join, hook, modifyMagnet, modifyShape, addCable, hsize]

theorem Consists.feeds_iff (h : d.Consists bodies wires) {a b : ShapeId} :
    d.Feeds a b ↔ ∃ w ∈ wires, w.1.shape = a ∧ w.2.shape = b := by
  constructor
  · rintro ⟨c, s, t, hc, rfl, rfl⟩
    rw [h.ends] at hc
    obtain ⟨w, hw, hends⟩ := Option.map_eq_some_iff.1 hc
    cases hends
    exact ⟨w, List.mem_of_getElem? hw, rfl, rfl⟩
  · rintro ⟨w, hw, rfl, rfl⟩
    obtain ⟨i, hi⟩ := List.mem_iff_getElem?.1 hw
    exact ⟨⟨i⟩, w.1, w.2, by rw [h.ends, hi]; rfl, rfl, rfl⟩

/-- A magnet at which no cable ends is free. -/
theorem Consists.cables_eq_nil (h : d.Consists bodies wires) {t : Terminal} {m : Magnet α}
    (hm : d.magnet? t = some m) (ht : t.side = .input) (hfree : ∀ w ∈ wires, w.2 ≠ t) :
    m.cables = [] := by
  refine List.eq_nil_iff_forall_not_mem.2 fun c hc => ?_
  obtain ⟨s, hends⟩ := h.sound.landed hm ht hc
  rw [h.ends] at hends
  obtain ⟨w, hw, he⟩ := Option.map_eq_some_iff.1 hends
  cases he
  exact hfree w (List.mem_of_getElem? hw) rfl

/-- Two magnets may be joined if they fit, the one where the cable lands is free, and no cables lead
from there to where it starts. -/
theorem Consists.joinFault?_eq_none (h : d.Consists bodies wires) {s t : Terminal} {m n : Magnet α}
    (hs : s.side = .output) (ht : t.side = .input) (hm : d.magnet? s = some m)
    (hn : d.magnet? t = some n) (haccepts : m.accepts n) (hfree : ∀ w ∈ wires, w.2 ≠ t)
    (hloop : ¬ ReflTransGen d.Feeds t.shape s.shape) : Edit.joinFault? d s t = none := by
  refine (Edit.joinFault?_eq_none_iff h.sound.toWired).2
    ⟨hs, ht, ⟨m, n, hm, hn, ?_, haccepts⟩, hloop⟩
  exact h.cables_eq_nil hn ht hfree

theorem Consists.connect (h : d.Consists bodies wires) {s t : Terminal}
    (hfault : Edit.joinFault? d s t = none) :
    (Edit.connect s t).run d = (.ok d.nextCable, d.join s t) ∧
      (d.join s t).Consists bodies (wires ++ [(s, t)]) := by
  obtain ⟨hside, hland⟩ := (Edit.joinFault?_eq_none_iff h.sound.toWired).1 hfault
  exact ⟨by rw [Edit.run_connect, hfault], h.join hside hland⟩

end Diagram

end Patchbay
