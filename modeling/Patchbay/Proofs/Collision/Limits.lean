import Patchbay.Proofs.Collision.Turns

/-!
# The limits of a resolution

A resolution goes on while there are overlaps to answer, and shapes that have been pushed aside get
turns of their own. What bounds it is that no shape is put aside twice: each turn but the first is
that of a shape that has just come to be reported, and no turn has more pushes than the settings
allow (`pushes_clearAll`).

On the way only shapes that can move are shifted. Nothing else about the diagram changes, but for
curves that have to be drawn again (`Shifted`). Both are put together in `limits_of_resolve`.
-/

namespace Patchbay

/-- The shape where it rests. -/
def Shape.unshifted {α : Type} [Scalar α] (s : Shape α) : Shape α :=
  { s with shift := Point.origin }

namespace Diagram

variable {α : Type} [Scalar α] {d d' d'' : Diagram α} {id i : ShapeId}

/-! ## What being shifted leaves alone -/

/-- The diagrams differ at most in the shifts of shapes that can move and in drawn curves. -/
structure Shifted (d d' : Diagram α) : Prop where
  lists : d' = { d with shapeSlots := d'.shapeSlots, cableSlots := d'.cableSlots }
  shapeSize : d'.shapeSlots.size = d.shapeSlots.size
  cableSize : d'.cableSlots.size = d.cableSlots.size
  shape : ∀ i, (d'.shape? i).map Shape.unshifted = (d.shape? i).map Shape.unshifted
  fixed : ∀ i, d.has Shape.isFixed i = true → d'.shape? i = d.shape? i
  cable : ∀ c, (d'.cable? c).map Cable.forgetCurve = (d.cable? c).map Cable.forgetCurve

theorem Shifted.refl (d : Diagram α) : Shifted d d :=
  ⟨rfl, rfl, rfl, fun _ => rfl, fun _ _ => rfl, fun _ => rfl⟩

theorem Shifted.trans (h : Shifted d d') (h' : Shifted d' d'') : Shifted d d'' where
  lists := by rw [h'.lists, h.lists]
  shapeSize := h'.shapeSize.trans h.shapeSize
  cableSize := h'.cableSize.trans h.cableSize
  shape i := (h'.shape i).trans (h.shape i)
  fixed i hi := by
    have hsame := h.fixed i hi
    have hi' : d'.has Shape.isFixed i = true := by
      unfold has at hi ⊢
      rwa [hsame]
    exact (h'.fixed i hi').trans hsame
  cable c := (h'.cable c).trans (h.cable c)

omit [Scalar α] in
theorem map_forgetCurve_cable?_forgetCurves (d : Diagram α) (id : ShapeId) (c : CableId) :
    ((d.forgetCurves id).cable? c).map Cable.forgetCurve = (d.cable? c).map Cable.forgetCurve := by
  unfold forgetCurves
  split
  · rfl
  · rename_i s _
    generalize s.cables = cs
    clear * -
    induction cs generalizing d with
    | nil => rfl
    | cons k cs ih =>
      refine (ih (d.modifyCable k Cable.forgetCurve)).trans ?_
      rw [cable?_modifyCable]
      split
      · cases d.cable? c <;> rfl
      · rfl

theorem shape?_shiftBy (d : Diagram α) (id : ShapeId) (p : Point α) (i : ShapeId) :
    (d.shiftBy id p).shape? i =
      if id = i then (d.shape? i).map fun s => { s with shift := s.shift + p } else d.shape? i := by
  rw [shiftBy, shape?_forgetCurves, shape?_modifyShape]

/-- Shifting a shape that can move. -/
theorem shifted_shiftBy (h : d.has Shape.isMovable id = true) (p : Point α) :
    Shifted d (d.shiftBy id p) where
  lists := (alike_shiftBy d id p).lists
  shapeSize := (alike_shiftBy d id p).shapeSize
  cableSize := (alike_shiftBy d id p).cableSize
  shape i := by
    rw [shape?_shiftBy]
    split
    · cases d.shape? i <;> rfl
    · rfl
  fixed i hi := by
    have hne : id ≠ i := by
      intro heq
      obtain ⟨s, hs, hmovable⟩ := has_iff.1 h
      rw [← heq, has_of_shape? hs] at hi
      simp [Shape.isMovable, hi] at hmovable
    exact shape?_shiftBy_of_ne d p hne
  cable c := map_forgetCurve_cable?_forgetCurves _ id c

theorem Shifted.movable (h : Shifted d d') (i : ShapeId) :
    d'.has Shape.isMovable i = d.has Shape.isMovable i := by
  have hsame := congrArg (Option.any Shape.isMovable) (h.shape i)
  rw [Option.any_map, Option.any_map] at hsame
  exact hsame

end Diagram

namespace Collision

open Diagram

variable {α : Type} [Scalar α] {around : Surroundings α} {bias : α} {root mover id : ShapeId}
  {d : Diagram α} {p : Progress α}

/-- Only the overlaps of a shape that can move are answered. -/
theorem movable_of_answer? {p next : Pass α} (h : answer? around bias root mover p = some next) :
    p.progress.diagram.has Shape.isMovable mover = true := by
  obtain ⟨s, hs, h⟩ := Option.bind_eq_some_iff.1 h
  by_cases hfixed : s.isFixed
  · rw [if_pos hfixed] at h
    cases h
  · exact has_iff.2 ⟨s, hs, by simpa [Shape.isMovable] using hfixed⟩

theorem shifted_answer? {p next : Pass α} (h : answer? around bias root mover p = some next) :
    Shifted p.progress.diagram next.progress.diagram := by
  have hmover := movable_of_answer? h
  have hboth : ∀ push other otherPush, p.progress.diagram.has Shape.isMovable other = true →
      Shifted p.progress.diagram
        (pushBoth around.settings p.progress.diagram mover push other otherPush) := by
    intro push other otherPush hother
    have hfirst := shifted_shiftBy hother
    exact (hfirst _).trans (shifted_shiftBy (((hfirst _).movable mover).trans hmover) _)
  obtain ⟨push, rfl⟩ | ⟨push, other, otherPush, d, rfl, hother, ⟨-, -, rfl⟩ | ⟨-, rfl⟩⟩ :=
    answer?_cases h
  · exact shifted_shiftBy hmover _
  · exact hboth push other otherPush hother
  · exact hboth push other otherPush hother

/-! ## Pushes -/

theorem pushes_answer? {p next : Pass α} (h : answer? around bias root mover p = some next) :
    next.progress.report.pushes = p.progress.report.pushes + 1 := by
  obtain ⟨push, rfl⟩ | ⟨push, other, otherPush, d, -, -, ⟨-, -, rfl⟩ | ⟨-, rfl⟩⟩ :=
    answer?_cases h <;> rfl

theorem pushes_clear (pushes : Nat) (p : Pass α) :
    (clear around bias root mover pushes p).progress.report.pushes ≤
      p.progress.report.pushes + pushes := by
  induction pushes generalizing p with
  | zero => exact Nat.le_refl _
  | succ pushes ih =>
    rw [clear]
    split
    · exact Nat.le_add_right _ _
    · rename_i next hnext
      have hrest := ih next
      rw [pushes_answer? hnext] at hrest
      omega

omit [Scalar α] in
/-- A limit on the pushes of each turn bounds those of some turns one by one. -/
theorem pushes_foldl {f : Progress α → ShapeId → Progress α} {limit : Nat}
    (hf : ∀ p id, (f p id).report.pushes + limit * p.report.displaced.length ≤
      p.report.pushes + limit * (1 + (f p id).report.displaced.length))
    (ids : List ShapeId) (p : Progress α) :
    (ids.foldl f p).report.pushes + limit * p.report.displaced.length ≤
      p.report.pushes + limit * (ids.length + (ids.foldl f p).report.displaced.length) := by
  induction ids generalizing p with
  | nil => simp
  | cons id ids ih =>
    have hfirst := hf p id
    have hrest := ih (f p id)
    simp only [List.foldl_cons, List.length_cons, Nat.mul_add, Nat.mul_one] at hfirst hrest ⊢
    omega

theorem pushes_turn (p : Progress α) (id : ShapeId) :
    (turn around bias root p id).report.pushes ≤
      p.report.pushes + around.settings.maxPushes :=
  pushes_clear _ _

theorem length_displaced_turn (p : Progress α) (id : ShapeId) :
    (turn around bias root p id).report.displaced.length = p.report.displaced.length +
      (clear around bias root id around.settings.maxPushes ⟨p, []⟩).followups.length := by
  rw [displaced_turn, List.length_append]

/-- There are no more turns than the first and one for each shape that comes to be reported. -/
theorem pushes_clearAll (depth : Nat) (p : Progress α) (mover : ShapeId) :
    (clearAll around bias root depth mover p).report.pushes +
        around.settings.maxPushes * p.report.displaced.length ≤
      p.report.pushes + around.settings.maxPushes *
        (1 + (clearAll around bias root depth mover p).report.displaced.length) := by
  induction depth generalizing mover p with
  | zero =>
    have hturn : (turn around bias root p mover).report.pushes +
        around.settings.maxPushes * p.report.displaced.length ≤
        p.report.pushes + around.settings.maxPushes *
          (1 + (turn around bias root p mover).report.displaced.length) := by
      have hpushes := @pushes_turn _ _ around bias root p mover
      rw [length_displaced_turn]
      simp only [Nat.mul_add, Nat.mul_one]
      omega
    rw [clearAll]
    split
    · exact hturn
    · exact hturn
  | succ depth ih =>
    have hpushes := @pushes_turn _ _ around bias root p mover
    have hlength := @length_displaced_turn _ _ around bias root p mover
    have hwait := pushes_foldl ih
      (clear around bias root mover around.settings.maxPushes ⟨p, []⟩).followups
      (turn around bias root p mover)
    have hrun : clearAll around bias root (depth + 1) mover p =
        (clear around bias root mover around.settings.maxPushes ⟨p, []⟩).followups.foldl
          (fun p other => clearAll around bias root depth other p)
          (turn around bias root p mover) := rfl
    -- what is reported in the turn of the mover pays for the turns of the shapes that wait
    rw [hlength] at hwait
    simp only [hrun, Nat.mul_add, Nat.mul_one] at hwait ⊢
    omega

/-! ## Resolutions -/

/-- From a diagram on, only shapes that can move have been moved, and no shape is put aside
twice. -/
structure Progress.Within (root : ShapeId) (d : Diagram α) (p : Progress α) : Prop where
  shifted : Shifted d p.diagram
  nodup : (p.moved root).Nodup
  movable : ∀ id ∈ p.report.displaced, d.has Shape.isMovable id = true

theorem within_answer? {p next : Pass α} (h : p.progress.Within root d)
    (hnext : answer? around bias root mover p = some next) : next.progress.Within root d := by
  have hshifted := h.shifted.trans (shifted_answer? hnext)
  obtain ⟨push, rfl⟩ | ⟨push, other, otherPush, e, -, hother, ⟨-, hnew, rfl⟩ | ⟨-, rfl⟩⟩ :=
    answer?_cases hnext
  · exact ⟨hshifted, h.nodup, h.movable⟩
  · have hmoved : ((p.pushed e).aside other).progress.moved root =
        p.progress.moved root ++ [other] := rfl
    refine ⟨hshifted, ?_, fun id hid => ?_⟩
    · rw [hmoved, List.nodup_append_comm, List.singleton_append, List.nodup_cons]
      exact ⟨hnew, h.nodup⟩
    · rcases List.mem_append.1 hid with hid | hid
      · exact h.movable id hid
      · rw [List.mem_singleton.1 hid, ← h.shifted.movable]
        exact hother
  · exact ⟨hshifted, h.nodup, h.movable⟩

theorem within_resolve (around : Surroundings α) (bias : α) (mover : ShapeId) (d : Diagram α) :
    (resolve around bias mover d).Within mover d :=
  clearAll_keeps (P := Progress.Within mover d)
    (fun _ _ _ hnext h => within_answer? h hnext)
    (fun _ h => ⟨h.shifted, h.nodup, h.movable⟩) _
    ⟨.refl d, List.nodup_singleton mover, by simp⟩

/-- A resolution reports shapes that are there and can move, each of them once and never the one
that it is for. It makes no more pushes than the turns of these shapes allow, and leaves everything
alone but the shifts of shapes that can move and drawn curves. -/
theorem limits_of_resolve (around : Surroundings α) (bias : α) (mover : ShapeId)
    (hd : d.Reachable) :
    (resolve around bias mover d).report.displaced.Nodup ∧
      mover ∉ (resolve around bias mover d).report.displaced ∧
      (∀ id ∈ (resolve around bias mover d).report.displaced,
        d.has Shape.isMovable id = true) ∧
      (resolve around bias mover d).report.pushes ≤ around.settings.maxPushes *
        (1 + (resolve around bias mover d).report.displaced.length) ∧
      ((d.shape? mover).isSome →
        (resolve around bias mover d).report.pushes ≤ around.settings.maxPushes * d.size) ∧
      Shifted d (resolve around bias mover d).diagram := by
  have hwithin := within_resolve around bias mover d
  obtain ⟨hnew, hnodup⟩ := List.nodup_cons.1 hwithin.nodup
  have hpushes : (resolve around bias mover d).report.pushes ≤ around.settings.maxPushes *
      (1 + (resolve around bias mover d).report.displaced.length) := by
    have hall := @pushes_clearAll _ _ around bias mover around.settings.maxFollowupDepth
      ⟨d, ⟨0, [], false⟩⟩ mover
    simp only [List.length_nil, Nat.mul_zero, Nat.add_zero, Nat.zero_add] at hall
    exact hall
  refine ⟨hnodup, hnew, hwithin.movable, hpushes, fun hlive => ?_, hwithin.shifted⟩
  have hlisted := hd.sound.mem_order
  have hsub : (resolve around bias mover d).moved mover ⊆ d.order := by
    intro id hid
    rw [hlisted, isSome_body?]
    refine ⟨?_, List.not_mem_nil⟩
    rcases List.mem_cons.1 hid with rfl | hid
    · exact hlive
    · rw [← isSome_body?]
      exact isSome_body?_of_has (hwithin.movable id hid)
  have hlen := (List.subperm_of_subset hwithin.nodup hsub).length_le
  rw [Progress.moved, List.length_cons, Nat.add_comm] at hlen
  exact hpushes.trans (Nat.mul_le_mul_left _ hlen)

theorem limits_of_resolve_crowd :
    (crowd.Reachable ∧ (crowd.shape? ⟨0⟩).isSome) ∧
    ([⟨1⟩, ⟨2⟩] : List ShapeId).Nodup ∧ (⟨0⟩ : ShapeId) ∉ [⟨1⟩, ⟨2⟩] ∧
      (∀ id ∈ ([⟨1⟩, ⟨2⟩] : List ShapeId), crowd.has Shape.isMovable id = true) ∧
      3 ≤ (⟨.standard, none⟩ : Surroundings Double).settings.maxPushes * crowd.size ∧
      Shifted crowd (resolve ⟨.standard, none⟩ (Scalar.half 1) ⟨0⟩ crowd).diagram := by
  have hlive : (crowd.shape? ⟨0⟩).isSome := by decide +kernel
  obtain ⟨hnodup, hnew, hmovable, -, hpushes, hshifted⟩ :=
    limits_of_resolve ⟨.standard, none⟩ (Scalar.half 1) ⟨0⟩ reachable_crowd
  have hpushes := hpushes hlive
  rw [report_resolve_crowd] at hnodup hnew hmovable hpushes
  exact ⟨⟨reachable_crowd, hlive⟩, hnodup, hnew, hmovable, hpushes, hshifted⟩

end Collision

end Patchbay
