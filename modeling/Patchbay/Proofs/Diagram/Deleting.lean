import Patchbay.Proofs.Diagram.Cascades

/-!
# Deleting

To delete an item is to lose its cascade and nothing else (`Sound.run_delete`). For a cable this
rests on outputs having one magnet, which has one cable: the output that is left without a cable is
the one that the cable leads to, and no other cable goes with that. For a shape the cables are cut
one by one, each in what the cuts before it have left.

Since the cascade of an item does not depend on what has gone before, two items may be deleted in
either order (`delete_comm`).
-/

namespace Patchbay

namespace Diagram

open Relation

variable {α : Type} {d d' : Diagram α} {apart : List ShapeId} {x y : Item} {id i : ShapeId}
  {c : CableId}

/-! ## What a cable takes along -/

theorem Takes.exists_shape (h : d.Takes (.cable c) y) : ∃ i, y = .shape i := by
  cases h
  exact ⟨_, rfl⟩

theorem Linked.takes_shape_iff (h : d.Linked) {s : Shape α} (hs : d.shape? id = some s) :
    d.Takes (.shape id) y ↔ ∃ c ∈ s.cables, y = .cable c := by
  constructor
  · intro hy
    cases hy with
    | cable hc hu => exact ⟨_, h.onlyPending_cables hs _ _ hc hu, rfl⟩
  · rintro ⟨c, hc, rfl⟩
    obtain ⟨u, hu, hcu⟩ := h.touches_of_mem_cables hs hc
    exact .cable hcu hu

variable [Scalar α]

/-- An output that a cable takes along takes no other cable along. -/
theorem Sound.eq_of_takes (h : d.Sound apart) {c' : CableId} (hc : d.Takes (.cable c) (.shape i))
    (hc' : d.Takes (.shape i) (.cable c')) : c' = c := by
  have hplace : ∀ {c u}, d.Touches c u → u.shape = i → d.has Shape.isOutput i = true →
      u = ⟨i, .input, 0⟩ := by
    rintro c u hcu rfl hout
    obtain ⟨m, hm⟩ := Option.isSome_iff_exists.1 (h.end_magnet hcu)
    exact h.conforming.eq_of_isOutput hout hm
  cases hc with
  | output he ht hout =>
    cases hc' with
    | cable hcu hu =>
      have ht' := hplace (touches_dest he) ht hout
      have hu' := hplace hcu hu hout
      rw [hu', ← ht'] at hcu
      exact h.eq_of_touches_input (touches_dest he) hcu (h.dest_side he)

/-- A cable takes along nothing but the output that it leads to. -/
theorem Sound.cascade_cable (h : d.Sound apart) (c : CableId) :
    d.cascade (.cable c) = {y | y = .cable c ∨ d.Takes (.cable c) y} := by
  ext y
  constructor
  · intro hy
    induction hy with
    | refl => exact .inl rfl
    | @tail y z _ hyz ih =>
      rcases ih with rfl | hy
      · exact .inr hyz
      · obtain ⟨i, rfl⟩ := hy.exists_shape
        cases hyz with
        | cable hc hu => exact .inl (congrArg Item.cable (h.eq_of_takes hy (.cable hc hu)))
  · rintro (rfl | hy)
    · exact ReflTransGen.refl
    · exact ReflTransGen.single hy

theorem Sound.cable_mem_cascade_cable (h : d.Sound apart) {x : CableId} :
    .cable x ∈ d.cascade (.cable c) ↔ c = x := by
  rw [h.cascade_cable]
  constructor
  · rintro (hx | hx)
    · exact (Item.cable.inj hx).symm
    · obtain ⟨_, hshape⟩ := hx.exists_shape
      cases hshape
  · rintro rfl
    exact .inl rfl

theorem Sound.shape_mem_cascade_cable (h : d.Sound apart) :
    .shape i ∈ d.cascade (.cable c) ↔ d.Takes (.cable c) (.shape i) := by
  rw [h.cascade_cable]
  exact or_iff_right (by simp)

/-- An output has no cable left when the cable that leads to it has been unplugged. -/
theorem Sound.not_isConnected_of_takes (h : d.Sound apart) {k : Cable α} (hk : d.cable? c = some k)
    (hc : d.Takes (.cable c) (.shape i)) {s : Shape α} (hs : (d.unplug c k).shape? i = some s) :
    ¬ s.inputs.any (·.isConnected) := by
  intro hany
  obtain ⟨m, hm, hconn⟩ := List.any_eq_true.1 hany
  obtain ⟨j, hj⟩ := List.mem_iff_getElem?.1 hm
  have hmag : (d.unplug c k).magnet? ⟨i, .input, j⟩ = some m := (magnet?_of_shape? hs).trans hj
  have hne : m.cables ≠ [] := by simpa [Magnet.isConnected] using hconn
  obtain ⟨c', hc'⟩ := List.exists_mem_of_ne_nil _ hne
  have htouches := ((h.unplug hk).mem_cables hmag c').1 hc'
  obtain ⟨hcu, hother⟩ := (touches_unplug d c k c' _).1 htouches
  exact hother (h.eq_of_takes hc (.cable hcu rfl))

/-- The output that is left without a cable is the one that the cable takes along. -/
theorem Sound.orphan?_unplug (h : d.Sound apart) {k : Cable α} (hk : d.cable? c = some k) :
    (d.unplug c k).orphan? k.dest = some i ↔ d.Takes (.cable c) (.shape i) := by
  have hsame : (d.unplug c k).has Shape.isOutput i = d.has Shape.isOutput i :=
    has_congr bodily_isOutput (body?_unplug d c k i)
  constructor
  · intro hi
    obtain ⟨⟨t, ht, hti⟩, s, hs, hout, -⟩ := orphan?_eq_some hi
    have hends : d.ends? c = some (k.source, some t) := by rw [ends?_eq_some hk, ht]
    exact .output hends hti (hsame ▸ has_iff.2 ⟨s, hs, hout⟩)
  · intro hi
    have hbare := fun s => h.not_isConnected_of_takes hk hi (s := s)
    cases hi with
    | @output _ _ _ t he ht hout =>
      obtain ⟨s, hs, hso⟩ := has_iff.1 (hsame.trans hout)
      rw [ends?_eq_some hk] at he
      have hdest : k.dest = some t := (Prod.mk.inj (Option.some.inj he)).2
      rw [hdest, orphan?_of_live (ht ▸ hs), if_pos ⟨hso, hbare s hs⟩, ht]

/-! ## What is left after deleting -/

theorem Sound.loses_cut (h : d.Sound apart) {k : Cable α} (hk : d.cable? c = some k) :
    d.Loses (d.cascade (.cable c)) (d.cut c k) := by
  have hunplug := loses_unplug h.toLinked hk
  rw [h.cascade_cable]
  unfold Diagram.cut
  split
  · rename_i i hi
    have hset : {y | y = .cable c ∨ d.Takes (.cable c) y} = {.cable c} ∪ {.shape i} := by
      ext y
      refine or_congr_right ⟨fun hy => ?_, fun hy => ?_⟩
      · obtain ⟨j, rfl⟩ := hy.exists_shape
        rw [← h.orphan?_unplug hk, hi] at hy
        cases hy
        rfl
      · cases hy
        exact (h.orphan?_unplug hk).1 hi
    rw [hset]
    exact hunplug.trans (loses_removeShape (h.unplug hk).toShapesListed i)
  · rename_i hnone
    have hset : {y | y = .cable c ∨ d.Takes (.cable c) y} = {.cable c} := by
      ext y
      refine or_iff_left fun hy => ?_
      obtain ⟨j, rfl⟩ := hy.exists_shape
      rw [← h.orphan?_unplug hk, hnone] at hy
      cases hy
    rw [hset]
    exact hunplug

theorem Sound.loses_cutIfThere (h : d.Sound []) (c : CableId) :
    d.Loses (d.cascade (.cable c)) (d.cutIfThere c) := by
  unfold Diagram.cutIfThere
  split
  · exact h.loses_cut ‹_›
  · exact h.loses_cascade_of_not_holds (not_holds_cable_iff.2 ‹_›)

/-- To cut cables one by one is to lose what each of them takes along in the diagram as it was. -/
theorem Sound.loses_foldl_cutIfThere (h : d.Sound []) (cs : List CableId) :
    d.Loses {y | ∃ c ∈ cs, y ∈ d.cascade (.cable c)} (cs.foldl Diagram.cutIfThere d) := by
  induction cs generalizing d with
  | nil => exact loses_of_not_holds h (by simp)
  | cons c cs ih =>
    have hcut := h.loses_cutIfThere c
    have hset : {y | ∃ x ∈ c :: cs, y ∈ d.cascade (.cable x)} =
        d.cascade (.cable c) ∪ {y | ∃ x ∈ cs, y ∈ (d.cutIfThere c).cascade (.cable x)} := by
      ext y
      have hunion : ∀ x, y ∈ d.cascade (.cable c) ∨ y ∈ (d.cutIfThere c).cascade x ↔
          y ∈ d.cascade (.cable c) ∨ y ∈ d.cascade x :=
        fun x => Set.ext_iff.1 (hcut.union_cascade (closed_cascade d _) x) y
      by_cases hy : y ∈ d.cascade (.cable c)
      · simp [hy]
      · simp only [hy, false_or] at hunion
        simp [hy, hunion]
    rw [hset]
    exact hcut.trans (ih (h.cutIfThere c))

theorem Sound.loses_removeShape_foldl (h : d.Sound []) {s : Shape α} (hs : d.shape? i = some s) :
    d.Loses (d.cascade (.shape i)) ((s.cables.foldl Diagram.cutIfThere d).removeShape i) := by
  have hset : d.cascade (.shape i) =
      {y | ∃ c ∈ s.cables, y ∈ d.cascade (.cable c)} ∪ {.shape i} := by
    ext y
    constructor
    · intro hy
      rcases ReflTransGen.cases_head hy with rfl | ⟨z, hz, hzy⟩
      · exact .inr rfl
      · obtain ⟨c, hc, rfl⟩ := (h.takes_shape_iff hs).1 hz
        exact .inl ⟨c, hc, hzy⟩
    · rintro (⟨c, hc, hy⟩ | rfl)
      · exact ReflTransGen.head ((h.takes_shape_iff hs).2 ⟨c, hc, rfl⟩) hy
      · exact ReflTransGen.refl
  rw [hset]
  have hfold : (s.cables.foldl Diagram.cutIfThere d).Sound [] :=
    Running.foldl_keeps (P := fun d : Diagram α => d.Sound [])
      (fun _ c hd => hd.cutIfThere c) s.cables h
  exact (h.loses_foldl_cutIfThere s.cables).trans (loses_removeShape hfold.toShapesListed i)

/-! ## Deleting items -/

/-- The refusal of an edit that asks for an item that is not there. -/
def unknownItem : Item → Error
  | .shape id => .unknownShape id
  | .cable id => .unknownCable id

omit [Scalar α] in
theorem run_delete_of_not_holds (hx : ¬ d.Holds x) :
    (Edit.delete x).run d = (.error (unknownItem x), d) := by
  cases x with
  | shape id =>
    rw [Edit.delete, Edit.run_deleteShape, not_holds_shape_iff.1 hx]
    rfl
  | cable id =>
    rw [Edit.delete, Edit.run_deleteCable, not_holds_cable_iff.1 hx]
    rfl

/-- To delete an item is to lose it and what it takes along, and nothing else. -/
theorem Sound.run_delete (h : d.Sound []) (hx : d.Holds x) :
    ∃ d', (Edit.delete x).run d = (.ok (), d') ∧ d'.Sound [] ∧ d.Loses (d.cascade x) d' := by
  cases x with
  | shape id =>
    obtain ⟨s, hs⟩ := Option.isSome_iff_exists.1 hx
    refine ⟨_, by rw [Edit.delete, Edit.run_deleteShape, hs], ?_, h.loses_removeShape_foldl hs⟩
    exact h.removeShape_foldl (h.onlyPending_cables hs)
  | cable id =>
    obtain ⟨k, hk⟩ := Option.isSome_iff_exists.1 hx
    exact ⟨_, by rw [Edit.delete, Edit.run_deleteCable, hk], h.cut hk, h.loses_cut hk⟩

/-- Deleting the item gives `d'`, or the item is not there, and being refused leaves the diagram as
it is. -/
def Discards (d : Diagram α) (x : Item) (d' : Diagram α) : Prop :=
  d.Holds x ∧ (Edit.delete x).run d = (.ok (), d') ∨
    ¬ d.Holds x ∧ (Edit.delete x).run d = (.error (unknownItem x), d) ∧ d' = d

theorem Sound.exists_discards (h : d.Sound []) (x : Item) :
    ∃ d', d.Discards x d' ∧ d'.Sound [] ∧ d.Loses (d.cascade x) d' := by
  by_cases hx : d.Holds x
  · obtain ⟨d', hrun, hd', hloses⟩ := h.run_delete hx
    exact ⟨d', .inl ⟨hx, hrun⟩, hd', hloses⟩
  · have hrun := run_delete_of_not_holds hx
    exact ⟨d, .inr ⟨hx, hrun, rfl⟩, h, h.loses_cascade_of_not_holds hx⟩

/-- Two items of a reachable diagram may be deleted in either order. If the first takes the second
along, the second is not there any more, and nothing is left to do. What is left in the end is the
diagram without the two cascades. -/
theorem delete_comm (h : d.Reachable) (hx : d.Holds x) (hy : d.Holds y) :
    ∃ dx dy d', (Edit.delete x).run d = (.ok (), dx) ∧ (Edit.delete y).run d = (.ok (), dy) ∧
      dx.Discards y d' ∧ dy.Discards x d' ∧ d.Loses (d.cascade x ∪ d.cascade y) d' := by
  obtain ⟨dx, hrunx, hdx, hlosesx⟩ := h.sound.run_delete hx
  obtain ⟨dy, hruny, hdy, hlosesy⟩ := h.sound.run_delete hy
  obtain ⟨dxy, hxy, hdxy, hlosesxy⟩ := hdx.exists_discards y
  obtain ⟨dyx, hyx, hdyx, hlosesyx⟩ := hdy.exists_discards x
  have hunionx := hlosesx.union_cascade (closed_cascade d x) y
  have huniony := hlosesy.union_cascade (closed_cascade d y) x
  -- in both orders the two cascades go, and nothing else does
  have hfirst : d.Loses (d.cascade x ∪ d.cascade y) dxy := hunionx ▸ hlosesx.trans hlosesxy
  have hsecond : d.Loses (d.cascade x ∪ d.cascade y) dyx := by
    rw [Set.union_comm, ← huniony]
    exact hlosesy.trans hlosesyx
  have hsame : dxy = dyx := hfirst.unique hsecond hdxy.toShapesListed hdyx.toShapesListed
  exact ⟨dx, dy, dxy, hrunx, hruny, hxy, hsame ▸ hyx, hfirst⟩

/-- A step that feeds an output. -/
def stepIntoOutput : List (Change Double) :=
  [.addShape (.step "f" [⟨"x", none⟩] [⟨"y", none⟩] Point.origin),
   .addShape (.output "o" none Point.origin),
   .connect ⟨⟨0⟩, .output, 0⟩ ⟨⟨1⟩, .input, 0⟩]

/-- The step takes the output along, but not the other way round. Nothing is left in the end. -/
theorem delete_comm_stepIntoOutput :
    ((blank.after stepIntoOutput).Reachable ∧ (blank.after stepIntoOutput).Holds (.shape ⟨0⟩) ∧
      (blank.after stepIntoOutput).Holds (.shape ⟨1⟩)) ∧
    ∃ dx dy d', (Edit.delete (.shape ⟨0⟩)).run (blank.after stepIntoOutput) = (.ok (), dx) ∧
      (Edit.delete (.shape ⟨1⟩)).run (blank.after stepIntoOutput) = (.ok (), dy) ∧
      dx.Discards (.shape ⟨1⟩) d' ∧ dy.Discards (.shape ⟨0⟩) d' ∧
      ¬ dx.Holds (.shape ⟨1⟩) ∧ dy.Holds (.shape ⟨0⟩) ∧ d'.isEmpty := by
  have hreach : (blank.after stepIntoOutput).Reachable := by
    refine ⟨_, ?_, rfl⟩
    simp [stepIntoOutput, Change.Built, Shape.Built.step, Shape.Built.output]
  have hafter : blank.after stepIntoOutput = (blank.after (stepIntoOutput.take 2)).join
      ⟨⟨0⟩, .output, 0⟩ ⟨⟨1⟩, .input, 0⟩ := by
    rw [← run_connect_of_successors_eq_nil rfl rfl rfl rfl rfl rfl (by decide) rfl]
    rfl
  have hstep : (blank.after stepIntoOutput).Holds (.shape ⟨0⟩) := by
    rw [hafter]
    rfl
  have houtput : (blank.after stepIntoOutput).Holds (.shape ⟨1⟩) := by
    rw [hafter]
    rfl
  refine ⟨⟨hreach, hstep, houtput⟩, ?_⟩
  obtain ⟨dx, dy, d', hx, hy, hxy, hyx, -⟩ := delete_comm hreach hstep houtput
  have hgone : ¬ dx.Holds (.shape ⟨1⟩) := by
    have hdx : dx = ((Edit.delete (.shape ⟨0⟩)).run (blank.after stepIntoOutput)).2 := by rw [hx]
    rw [not_holds_shape_iff, hdx, hafter]
    rfl
  have hleft : dy.Holds (.shape ⟨0⟩) := by
    have hdy : dy = ((Edit.delete (.shape ⟨1⟩)).run (blank.after stepIntoOutput)).2 := by rw [hy]
    rw [hdy, hafter]
    rfl
  refine ⟨dx, dy, d', hx, hy, hxy, hyx, hgone, hleft, ?_⟩
  have hd' : d' = ((Edit.delete (.shape ⟨0⟩)).run (blank.after stepIntoOutput)).2 := by
    rcases hxy with ⟨hlive, -⟩ | ⟨-, -, rfl⟩
    · exact absurd hlive hgone
    · rw [hx]
  rw [hd', hafter]
  rfl

end Diagram

end Patchbay
