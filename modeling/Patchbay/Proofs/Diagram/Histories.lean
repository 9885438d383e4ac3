import Patchbay.Double
import Patchbay.Proofs.Diagram.Later
import Patchbay.Proofs.Diagram.Paths
import Patchbay.Proofs.Diagram.Replacing

/-!
# Histories

What holds of every diagram that some changes lead to, whichever they are, in whichever order, and
whether they were refused or not. Each change keeps the diagram sound (`Sound.run`), so every
reachable diagram is sound (`Reachable.sound`). Read off from that:

* the slots, the lists and the magnets agree, and what has been deleted stays deleted
  (`coherent_of_reachable`),
* cables close no loop (`acyclic_of_reachable`),
* cables run from output magnets to input magnets that accept them, one cable each
  (`cablesFit_of_reachable`).

Shapes must come as they were built: an output that has output magnets could be taken out of the
diagram from under their cables.
-/

namespace Patchbay

namespace Diagram

variable {α : Type} [Scalar α] {d d' d'' : Diagram α}

/-! ## Reachable diagrams -/

/-- A shape that comes with the change is as it was built. -/
def Change.Built : Change α → Prop
  | .addShape s | .replaceStep _ s => s.Built
  | _ => True

/-- Some changes lead from the one diagram to the other. -/
def Becomes (d d' : Diagram α) : Prop :=
  ∃ changes : List (Change α), (∀ c ∈ changes, c.Built) ∧ d.after changes = d'

/-- Some changes lead to the diagram from the blank one. -/
def Reachable (d : Diagram α) : Prop := blank.Becomes d

/-! ## One change -/

/-- What a change leaves behind is what its edit leaves behind. -/
theorem run_snd (d : Diagram α) (c : Change α) : (d.run c).2 =
    match c with
      | .addShape s => d.addShape s
      | .setPosition id p => ((Edit.setPosition id p).run d).2
      | .shiftBy id p => ((Edit.shiftBy id p).run d).2
      | .settle => d.settle
      | .connect s t => ((Edit.connect s t).run d).2
      | .startCable s => ((Edit.startCable s).run d).2
      | .moveEnd id p => ((Edit.moveEnd id p).run d).2
      | .attach id t => ((Edit.attach id t).run d).2
      | .deleteShape id | .delete (.shape id) => ((Edit.deleteShape id).run d).2
      | .deleteCable id | .delete (.cable id) => ((Edit.deleteCable id).run d).2
      | .replaceStep old next => ((Edit.replaceStep old next).run d).2 := by
  cases c with
  | addShape => exact Running.run_map_snd _ _ d
  | connect => exact Running.run_map_snd _ _ d
  | startCable => exact Running.run_map_snd _ _ d
  | replaceStep => exact Running.run_map_snd _ _ d
  | delete item => cases item <;> exact Running.run_seqRight_pure_snd _ _ d
  | _ => exact Running.run_seqRight_pure_snd _ _ d

theorem run_connect_of_successors_eq_nil {s t : Terminal} {m n : Magnet α}
    (hs : s.side = .output) (ht : t.side = .input) (hm : d.magnet? s = some m)
    (hn : d.magnet? t = some n) (hempty : n.cables = []) (haccepts : m.accepts n = true)
    (hne : s.shape ≠ t.shape) (hnil : d.successors t.shape = []) :
    (d.run (.connect s t)).2 = d.join s t := by
  have hrun := Edit.run_connect_of_successors_eq_nil hs ht hm hn hempty haccepts hne hnil
  simp only [run_snd, hrun]

/-- What is kept by elementary changes, and when shapes are placed and moved, is kept by every
change. -/
theorem Stable.run {P : Diagram α → Prop} (h : Stable P) (hd : P d) {c : Change α}
    (hadd : ∀ s, c = .addShape s → P (d.addShape s)) (hset : ∀ id p, P (d.setPosition id p))
    (hshift : ∀ id p, P (d.shiftBy id p)) (hsettle : P d.settle)
    (hplace : ∀ old next previous, c = .replaceStep old next → d.shape? old = some previous →
      P (d.placeShape { next with position := previous.position, shift := previous.shift })) :
    P (d.run c).2 := by
  rw [run_snd]
  cases c with
  | addShape s => exact hadd s rfl
  | setPosition id p =>
    dsimp only
    rw [Edit.run_setPosition]
    split
    · exact hset id p
    · exact hd
  | shiftBy id p =>
    dsimp only
    rw [Edit.run_shiftBy]
    split
    · exact hshift id p
    · exact hd
  | settle => exact hsettle
  | connect s t => exact h.connect s t d hd
  | startCable s => exact h.startCable s d hd
  | moveEnd id p => exact h.keeps_moveEnd id p d hd
  | attach id t => exact h.attach id t d hd
  | deleteShape id => exact h.deleteShape id d hd
  | deleteCable id => exact h.deleteCable id d hd
  | delete item => cases item with
    | shape id => exact h.deleteShape id d hd
    | cable id => exact h.deleteCable id d hd
  | replaceStep old next => exact h.replaceStep hd fun previous => hplace old next previous rfl

theorem later_run (d : Diagram α) (c : Change α) : d.Later (d.run c).2 :=
  (stable_later d).run (.refl d) (fun s _ => later_addShape d s)
    (fun id p => (alike_setPosition d id p).later) (fun id p => (alike_shiftBy d id p).later)
    (alike_settle d).later fun _ _ _ _ _ => later_placeShape d _

theorem Sound.deleteCable (h : d.Sound []) (id : CableId) :
    ((Edit.deleteCable id).run d).2.Sound [] := by
  rw [Edit.run_deleteCable]
  split
  · exact h.cut ‹_›
  · exact h

theorem Sound.deleteShape (h : d.Sound []) (id : ShapeId) :
    ((Edit.deleteShape id).run d).2.Sound [] := by
  rw [Edit.run_deleteShape]
  split
  · exact h.removeShape_foldl (h.toLinked.onlyPending_cables ‹_›)
  · exact h

theorem Sound.connect (h : d.Sound []) (s t : Terminal) :
    ((Edit.connect s t).run d).2.Sound [] := by
  rw [Edit.run_connect]
  split
  · exact h
  · obtain ⟨hside, hland⟩ := (Edit.joinFault?_eq_none_iff h.toWired).1 ‹_›
    exact h.join hside hland

theorem isSome_magnet?_of_magnetPosition? {t : Terminal} {p : Point α}
    (h : d.magnetPosition? t = some p) : (d.magnet? t).isSome := by
  obtain ⟨s, hs, h⟩ := Option.bind_eq_some_iff.1 h
  obtain ⟨m, hm, -⟩ := Option.bind_eq_some_iff.1 h
  rw [magnet?_of_shape? hs, hm]
  rfl

/-- A magnet that is there is somewhere. -/
theorem exists_magnetPosition? {t : Terminal} {m : Magnet α}
    (hm : d.magnet? t = some m) : ∃ p, d.magnetPosition? t = some p := by
  obtain ⟨s, hs, hi⟩ := Option.bind_eq_some_iff.1 hm
  exact ⟨s.magnetPosition m, by simp [magnetPosition?, hs, hi]⟩

theorem Sound.startCable (h : d.Sound []) (s : Terminal) :
    ((Edit.startCable s).run d).2.Sound [] := by
  rw [Edit.run_startCable]
  split
  · exact h
  · split
    · exact h.start _ (isSome_magnet?_of_magnetPosition? ‹_›) (Decidable.not_not.1 ‹_›)
    · exact h

theorem Sound.attach (h : d.Sound []) (id : CableId) (t : Terminal) :
    ((Edit.attach id t).run d).2.Sound [] := by
  rw [Edit.run_attach]
  split
  · exact h
  · rename_i k hk
    split
    · exact h
    · rename_i hloose
      split
      · exact h
      · obtain ⟨-, hland⟩ := (Edit.joinFault?_eq_none_iff h.toWired).1 ‹_›
        refine h.land (s := k.source) ?_ hland
        rw [ends?_eq_some hk]
        simpa [Cable.isAttached] using hloose

theorem Sound.replaceStep (h : d.Sound []) (old : ShapeId) {next : Shape α} (hnext : next.Built) :
    ((Edit.replaceStep old next).run d).2.Sound [] := by
  have hrun := Edit.run_replaceStep h old hnext.conforms
  split at hrun
  · rw [hrun]
    exact h
  · obtain ⟨result, d', hrun, hd'⟩ := hrun
    rw [hrun]
    exact hd'

theorem Sound.moveEnd (h : d.Sound []) (id : CableId) (p : Point α) :
    ((Edit.moveEnd id p).run d).2.Sound [] := by
  rw [Edit.run_moveEnd]
  split
  · exact h.alike (alike_modifyCable d id fun _ => ⟨rfl, rfl⟩)
  · exact h

theorem Sound.setPosition (h : d.Sound []) (id : ShapeId) (p : Point α) :
    ((Edit.setPosition id p).run d).2.Sound [] := by
  rw [Edit.run_setPosition]
  split
  · exact h.alike (alike_setPosition d id p)
  · exact h

theorem Sound.shiftBy (h : d.Sound []) (id : ShapeId) (p : Point α) :
    ((Edit.shiftBy id p).run d).2.Sound [] := by
  rw [Edit.run_shiftBy]
  split
  · exact h.alike (alike_shiftBy d id p)
  · exact h

/-- Every change keeps a diagram sound, also when it is refused. -/
theorem Sound.run (h : d.Sound []) {c : Change α} (hc : c.Built) : (d.run c).2.Sound [] := by
  rw [run_snd]
  cases c with
  | addShape s => exact h.addShape (Shape.Built.conforms hc)
  | setPosition id p => exact h.setPosition id p
  | shiftBy id p => exact h.shiftBy id p
  | settle => exact h.alike (alike_settle d)
  | connect s t => exact h.connect s t
  | startCable s => exact h.startCable s
  | moveEnd id p => exact h.moveEnd id p
  | attach id t => exact h.attach id t
  | deleteShape id => exact h.deleteShape id
  | deleteCable id => exact h.deleteCable id
  | delete item =>
    cases item with
    | shape id => exact h.deleteShape id
    | cable id => exact h.deleteCable id
  | replaceStep old next => exact h.replaceStep old hc

/-! ## Many changes -/

theorem Sound.after (h : d.Sound []) {changes : List (Change α)} (hc : ∀ c ∈ changes, c.Built) :
    (d.after changes).Sound [] := by
  induction changes generalizing d with
  | nil => exact h
  | cons c cs ih =>
    exact ih (h.run (hc c List.mem_cons_self)) fun c' hc' => hc c' (List.mem_cons_of_mem c hc')

theorem later_after (d : Diagram α) (changes : List (Change α)) : d.Later (d.after changes) := by
  induction changes generalizing d with
  | nil => exact .refl d
  | cons c cs ih => exact (later_run d c).trans (ih _)

theorem Becomes.later (h : d.Becomes d') : d.Later d' := by
  obtain ⟨changes, -, rfl⟩ := h
  exact later_after d changes

theorem Reachable.sound (h : d.Reachable) : d.Sound [] := by
  obtain ⟨changes, hc, rfl⟩ := h
  exact sound_blank.after hc

/-! ## Agreement -/

/-- The slots, the lists and the magnets of a diagram agree. -/
structure Coherent (d : Diagram α) : Prop where
  order_nodup : d.order.Nodup
  mem_order_iff : ∀ id, id ∈ d.order ↔ (d.shape? id).isSome
  inputs_eq : d.inputs = d.order.filter (d.has Shape.isInput)
  steps_eq : d.steps = d.order.filter (d.has Shape.isStep)
  outputs_eq : d.outputs = d.order.filter (d.has Shape.isOutput)
  cableOrder_nodup : d.cableOrder.Nodup
  mem_cableOrder_iff : ∀ c, c ∈ d.cableOrder ↔ (d.cable? c).isSome
  source : ∀ c k, d.cable? c = some k → k.source.side = .output ∧
    ∃ m, d.magnet? k.source = some m ∧ m.side = .output ∧ m.cables.count c = 1
  dest : ∀ c k t, d.cable? c = some k → k.dest = some t → t.side = .input ∧
    ∃ m, d.magnet? t = some m ∧ m.side = .input ∧ m.cables.count c = 1
  held : ∀ u m c, d.magnet? u = some m → c ∈ m.cables →
    ∃ k, d.cable? c = some k ∧ (k.source = u ∨ k.dest = some u)

theorem Conforming.magnet_side (h : d.Conforming) {u : Terminal} {m : Magnet α}
    (hm : d.magnet? u = some m) : m.side = u.side := by
  obtain ⟨s, hs, hi⟩ := Option.bind_eq_some_iff.1 hm
  have hside := (h.shape hs).side (m := m.clear)
  cases hu : u.side <;> rw [hu] at hi
  · exact hside.1 (List.mem_map_of_mem (List.mem_of_getElem? hi))
  · exact hside.2 (List.mem_map_of_mem (List.mem_of_getElem? hi))

theorem Sound.coherent (h : d.Sound []) : d.Coherent where
  order_nodup := h.order_nodup
  mem_order_iff id := by
    rw [h.mem_order, isSome_body?]
    simp
  inputs_eq := h.inputs_eq
  steps_eq := h.steps_eq
  outputs_eq := h.outputs_eq
  cableOrder_nodup := h.cableOrder_nodup
  mem_cableOrder_iff c := by rw [h.mem_cableOrder, isSome_ends?]
  source c k hk := by
    have hc := ends?_eq_some hk
    obtain ⟨m, hm, hmem⟩ := h.toLinked.source hc
    have hside := h.source_side hc
    exact ⟨hside, m, hm, (h.conforming.magnet_side hm).trans hside,
      List.count_eq_one_of_mem (h.nodup hm) hmem⟩
  dest c k t hk ht := by
    have hc := ends?_eq_some hk
    rw [ht] at hc
    obtain ⟨m, hm, hmem⟩ := h.toLinked.dest hc
    have hside := h.dest_side hc
    exact ⟨hside, m, hm, (h.conforming.magnet_side hm).trans hside,
      List.count_eq_one_of_mem (h.nodup hm) hmem⟩
  held u m c hm hc := by
    obtain ⟨s, o, hso, hu⟩ := (h.mem_cables hm c).1 hc
    obtain ⟨k, hk, rfl, rfl⟩ := exists_cable_of_ends? hso
    exact ⟨k, hk, hu.imp_left Eq.symm⟩

/-- In a reachable diagram everything that is said twice agrees, and in whatever becomes of it a
shape or cable that is gone stays gone. -/
theorem coherent_of_reachable (h : d.Reachable) :
    d.Coherent ∧ ∀ d' d'', d.Becomes d' → d'.Becomes d'' →
      (∀ id, (d.shape? id).isSome → d'.shape? id = none → d''.shape? id = none) ∧
      (∀ id, (d.cable? id).isSome → d'.cable? id = none → d''.cable? id = none) := by
  refine ⟨h.sound.coherent, fun d' d'' hd' hd'' => ⟨fun id => ?_, fun id => ?_⟩⟩
  · exact hd'.later.shape_gone hd''.later
  · exact hd'.later.cable_gone hd''.later

/-- A step with a loose cable, beside an input. -/
def stepWithLooseCable : List (Change Double) :=
  [.addShape (.rawInput "a" Point.origin),
   .addShape (.step "f" [⟨"x", none⟩] [⟨"y", none⟩] Point.origin),
   .startCable ⟨⟨1⟩, .output, 0⟩]

def otherStep : List (Change Double) :=
  [.replaceStep ⟨1⟩ (.step "g" [⟨"x", none⟩] [⟨"y", none⟩] Point.origin)]

theorem coherent_stepWithLooseCable :
    ((blank.after stepWithLooseCable).Reachable ∧
      ((blank.after stepWithLooseCable).shape? ⟨1⟩).isSome ∧
      ((blank.after stepWithLooseCable).cable? ⟨0⟩).isSome ∧
      ((blank.after stepWithLooseCable).after otherStep).shape? ⟨1⟩ = none ∧
      ((blank.after stepWithLooseCable).after otherStep).cable? ⟨0⟩ = none) ∧
    (blank.after stepWithLooseCable).Coherent ∧
    ∀ d, ((blank.after stepWithLooseCable).after otherStep).Becomes d →
      d.shape? ⟨1⟩ = none ∧ d.cable? ⟨0⟩ = none := by
  have hreach : (blank.after stepWithLooseCable).Reachable := by
    refine ⟨_, ?_, rfl⟩
    simp [stepWithLooseCable, Change.Built, Shape.Built.rawInput, Shape.Built.step]
  have hnext : (blank.after stepWithLooseCable).Becomes
      ((blank.after stepWithLooseCable).after otherStep) := by
    refine ⟨_, ?_, rfl⟩
    simp [otherStep, Change.Built, Shape.Built.step]
  refine ⟨⟨hreach, rfl, rfl, rfl, rfl⟩, (coherent_of_reachable hreach).1, fun d hd => ?_⟩
  obtain ⟨hshape, hcable⟩ := (coherent_of_reachable hreach).2 _ d hnext hd
  exact ⟨hshape ⟨1⟩ rfl rfl, hcable ⟨0⟩ rfl rfl⟩

/-! ## Loops -/

/-- In a reachable diagram cables run between shapes that are there, and none leads back to where it
came from. -/
theorem acyclic_of_reachable (h : d.Reachable) :
    (∀ a b, d.Feeds a b → (d.shape? a).isSome ∧ (d.shape? b).isSome) ∧ d.Acyclic := by
  refine ⟨fun a b hab => ?_, h.sound.toWired.acyclic⟩
  rw [← isSome_body?, ← isSome_body?]
  exact ⟨h.sound.feeds_live_left hab, h.sound.feeds_live_right hab⟩

/-- Two steps with loose cables that are dropped on each other. -/
def crossedSteps : List (Change Double) :=
  [.addShape (.step "f" [⟨"x", none⟩] [⟨"y", none⟩] Point.origin),
   .addShape (.step "g" [⟨"x", none⟩] [⟨"y", none⟩] Point.origin),
   .startCable ⟨⟨0⟩, .output, 0⟩, .startCable ⟨⟨1⟩, .output, 0⟩,
   .attach ⟨0⟩ ⟨⟨1⟩, .input, 0⟩, .attach ⟨1⟩ ⟨⟨0⟩, .input, 0⟩]

theorem built_crossedSteps : ∀ c ∈ crossedSteps, c.Built := by
  simp [crossedSteps, Change.Built, Shape.Built.step]

theorem acyclic_crossedSteps :
    ((blank.after crossedSteps).Reachable ∧
      (blank.after crossedSteps).Feeds ⟨0⟩ ⟨1⟩ ∧ ¬ (blank.after crossedSteps).Feeds ⟨1⟩ ⟨0⟩) ∧
    (∀ a b, (blank.after crossedSteps).Feeds a b →
      ((blank.after crossedSteps).shape? a).isSome ∧
        ((blank.after crossedSteps).shape? b).isSome) ∧
    (blank.after crossedSteps).Acyclic := by
  have hreach : (blank.after crossedSteps).Reachable := ⟨_, built_crossedSteps, rfl⟩
  have hacyclic := acyclic_of_reachable hreach
  -- The first cable lands, and what becomes of the second leaves it alone.
  have hfirst : (blank.after (crossedSteps.take 5)) =
      (blank.after (crossedSteps.take 4)).land ⟨0⟩ ⟨⟨1⟩, .input, 0⟩ := by
    change ((blank.after (crossedSteps.take 4)).run (.attach ⟨0⟩ ⟨⟨1⟩, .input, 0⟩)).2 = _
    simp only [run_snd]
    rw [Edit.run_attach_of_loose rfl,
      Edit.joinFault?_of_successors_eq_nil rfl rfl rfl rfl rfl rfl (by decide) rfl]
  have hsecond : (blank.after crossedSteps).ends? ⟨0⟩ =
      some (⟨⟨0⟩, .output, 0⟩, some ⟨⟨1⟩, .input, 0⟩) := by
    change ((blank.after (crossedSteps.take 5)).run
      (.attach ⟨1⟩ ⟨⟨0⟩, .input, 0⟩)).2.ends? ⟨0⟩ = _
    simp only [run_snd]
    rw [hfirst, Edit.run_attach_of_loose rfl]
    split <;> rfl
  have hfeeds : (blank.after crossedSteps).Feeds ⟨0⟩ ⟨1⟩ := ⟨_, _, _, hsecond, rfl, rfl⟩
  exact ⟨⟨hreach, hfeeds, fun hback => hacyclic.2 ⟨0⟩ (.tail (.single hfeeds) hback)⟩, hacyclic⟩

/-! ## Ends of cables -/

/-- Cables run from output magnets to input magnets that accept them. -/
structure CablesFit (d : Diagram α) : Prop where
  leaves : ∀ c k, d.cable? c = some k →
    k.source.side = .output ∧ ∃ m, d.magnet? k.source = some m ∧ m.side = .output
  lands : ∀ c k t, d.cable? c = some k → k.dest = some t →
    t.side = .input ∧ ∃ m, d.magnet? t = some m ∧ m.side = .input
  single : ∀ u m, d.magnet? u = some m → u.side = .input →
    m.cables = [] ∨ ∃ c k, m.cables = [c] ∧ d.cable? c = some k ∧ k.dest = some u
  datatypes : ∀ c k t m n, d.cable? c = some k → k.dest = some t → d.magnet? k.source = some m →
    d.magnet? t = some n → m.datatype = n.datatype ∨ m.datatype = none ∨ n.datatype = none

/-- In a reachable diagram every cable leaves an output magnet, and every cable with two ends lands
alone on an input magnet that its source accepts. -/
theorem cablesFit_of_reachable (h : d.Reachable) : d.CablesFit where
  leaves c k hk := by
    obtain ⟨hside, m, hm, hmside, -⟩ := h.sound.coherent.source c k hk
    exact ⟨hside, m, hm, hmside⟩
  lands c k t hk ht := by
    obtain ⟨hside, m, hm, hmside, -⟩ := h.sound.coherent.dest c k t hk ht
    exact ⟨hside, m, hm, hmside⟩
  single u m hm hu := by
    refine Classical.or_iff_not_imp_left.2 fun hne => ?_
    obtain ⟨c, hc⟩ := List.exists_mem_of_ne_nil _ hne
    obtain ⟨s, hs⟩ := h.sound.landed hm hu hc
    obtain ⟨k, hk, -, hdest⟩ := exists_cable_of_ends? hs
    exact ⟨c, k, h.sound.eq_singleton hm hu hc, hk, hdest⟩
  datatypes c k t m n hk ht hm hn := by
    have hc := ends?_eq_some hk
    rw [ht] at hc
    exact Magnet.accepts_iff.1 (h.sound.accepts hc hm hn)

theorem cablesFit_crossedSteps :
    (blank.after crossedSteps).Reachable ∧ (blank.after crossedSteps).CablesFit := by
  have hreach : (blank.after crossedSteps).Reachable := ⟨_, built_crossedSteps, rfl⟩
  exact ⟨hreach, cablesFit_of_reachable hreach⟩

end Diagram

end Patchbay
