import Patchbay.Collision
import Patchbay.Proofs.Diagram.Places
import Patchbay.Proofs.Running

/-!
# What collisions move

While the other shape takes a share of each push, a resolution reports every shape that it moves:
whatever is neither the shape that it is for nor reported as pushed aside is as it was
(`shape?_resolve`). Without a share the other shape is not reported, although it still moves when
the edge of the canvas holds the mover back, so that whether a shape that comes out with another
shift is reported depends on the share alone (`mem_displaced_iff_of_shift_ne`).

A shape is only ever moved by being shifted, so what shifting keeps, a resolution keeps
(`resolve_keeps`).
-/

namespace Patchbay

def Diagram.shift? {α : Type} (d : Diagram α) (i : ShapeId) : Option (Point α) :=
  (d.shape? i).map (·.shift)

def Shape.isMovable {α : Type} (s : Shape α) : Bool := !s.isFixed

theorem Diagram.bodily_isMovable {α : Type} : Bodily (Shape.isMovable (α := α)) := fun s t h => by
  simp [Shape.isMovable, Shape.isFixed, Shape.kind_eq_of_body_eq h]

namespace Collision

open Diagram

variable {α : Type} {root mover : ShapeId}

/-! ## What is reported -/

/-- The shapes that have been pushed aside, and the shape that the resolution is for. -/
def Progress.moved (root : ShapeId) (p : Progress α) : List ShapeId := root :: p.report.displaced

/-- From one stage of a resolution to a later one, all that moves is reported by then. -/
structure Reports (root : ShapeId) (p q : Progress α) : Prop where
  moved : p.moved root ⊆ q.moved root
  still : ∀ i ∉ q.moved root, q.diagram.shape? i = p.diagram.shape? i

theorem Reports.refl (root : ShapeId) (p : Progress α) : Reports root p p :=
  ⟨fun _ => id, fun _ _ => rfl⟩

theorem Reports.trans {p q r : Progress α} (h : Reports root p q) (h' : Reports root q r) :
    Reports root p r where
  moved := fun _ hi => h'.moved (h.moved hi)
  still i hi := (h'.still i hi).trans (h.still i fun hq => hi (h'.moved hq))

/-- A note that a limit was met changes nothing else. -/
theorem reports_cap (root : ShapeId) (p : Progress α) : Reports root p p.cap :=
  ⟨fun _ => id, fun _ _ => rfl⟩

/-- The mover and the shapes that wait for their turn are reported. -/
structure Pass.Noted (root mover : ShapeId) (p : Pass α) : Prop where
  mover : mover ∈ p.progress.moved root
  followups : ∀ i ∈ p.followups, i ∈ p.progress.moved root

theorem noted_start {p : Progress α} (h : mover ∈ p.moved root) :
    Pass.Noted root mover ⟨p, []⟩ :=
  ⟨h, by simp⟩

/-! ## Single answers -/

variable [Scalar α] {around : Surroundings α} {bias : α}

/-- An answer pushes the mover alone, or the mover and another shape, one that can move. The other
shape is noted unless it takes no share of the push or has been noted before. -/
theorem answer?_cases {p next : Pass α} (h : answer? around bias root mover p = some next) :
    (∃ push, next = p.pushed (pushOne around.settings p.progress.diagram mover push)) ∨
    ∃ push other otherPush d,
      d = pushBoth around.settings p.progress.diagram mover push other otherPush ∧
      p.progress.diagram.has Shape.isMovable other = true ∧
      ((0 < bias ∧ other ∉ root :: p.progress.report.displaced ∧
          next = (p.pushed d).aside other) ∨
        (¬ (0 < bias ∧ other ∉ root :: p.progress.report.displaced) ∧ next = p.pushed d)) := by
  obtain ⟨s, -, h⟩ := Option.bind_eq_some_iff.1 h
  by_cases hf : s.isFixed
  · rw [if_pos hf] at h
    cases h
  rw [if_neg hf] at h
  split at h
  · cases h
    exact .inl ⟨_, rfl⟩
  · obtain ⟨⟨id, other⟩, hfind, h⟩ := Option.bind_eq_some_iff.1 h
    dsimp only at h
    split at h
    · cases h
      exact .inl ⟨_, rfl⟩
    · rename_i hfixed
      have hother := (mem_shapes_iff.1 (List.mem_of_find?_eq_some hfind)).2
      have hmovable : p.progress.diagram.has Shape.isMovable id = true :=
        has_iff.2 ⟨other, hother, by simpa [Shape.isMovable] using hfixed⟩
      split at h
      · rename_i hnoted
        cases h
        exact .inr ⟨_, id, _, _, rfl, hmovable, .inl ⟨hnoted.1, hnoted.2, rfl⟩⟩
      · rename_i hnoted
        cases h
        exact .inr ⟨_, id, _, _, rfl, hmovable, .inr ⟨hnoted, rfl⟩⟩

theorem shape?_pushOne (settings : Settings α) (d : Diagram α) (push : Point α) {i : ShapeId}
    (h : i ≠ mover) : (pushOne settings d mover push).shape? i = d.shape? i :=
  shape?_shiftBy_of_ne d _ h.symm

theorem shape?_pushBoth (settings : Settings α) (d : Diagram α) (push otherPush : Point α)
    {other i : ShapeId} (h : i ≠ mover) (h' : i ≠ other) :
    (pushBoth settings d mover push other otherPush).shape? i = d.shape? i :=
  (shape?_shiftBy_of_ne _ _ h.symm).trans (shape?_shiftBy_of_ne d _ h'.symm)

/-- Pushing two shapes comes down to pushing one after the other. -/
theorem pushBoth_eq {settings : Settings α} {d : Diagram α} {push otherPush : Point α}
    {other : ShapeId} (h : other ≠ mover) :
    pushBoth settings d mover push other otherPush =
      pushOne settings
        (pushOne settings d other (otherPush + overflowAt settings d mover push)) mover
        (push + overflowAt settings d mover push +
          overflowAt settings d other (otherPush + overflowAt settings d mover push)) := by
  have hsame : ∀ p q, overflowAt settings (pushOne settings d other p) mover q =
      overflowAt settings d mover q := by
    intro p q
    rw [overflowAt, overflowAt, shape?_pushOne settings d p h.symm]
  rw [pushOne, hsame]
  rfl

theorem reports_answer? (hbias : 0 < bias) {p next : Pass α} (hp : p.Noted root mover)
    (h : answer? around bias root mover p = some next) :
    Reports root p.progress next.progress ∧ next.Noted root mover := by
  obtain ⟨push, rfl⟩ | ⟨push, other, otherPush, d, rfl, -, ⟨-, hnew, rfl⟩ | ⟨hold, rfl⟩⟩ :=
    answer?_cases h
  · refine ⟨⟨fun _ => id, fun i hi => shape?_pushOne _ _ _ ?_⟩, ⟨hp.mover, hp.followups⟩⟩
    rintro rfl
    exact hi hp.mover
  · have hgrows : ∀ i, i ∈ p.progress.moved root ∨ i = other →
        i ∈ root :: (p.progress.report.displaced ++ [other]) := by
      rintro i (hi | rfl)
      · rcases List.mem_cons.1 hi with rfl | hi
        · exact List.mem_cons_self
        · exact List.mem_cons_of_mem _ (List.mem_append_left _ hi)
      · simp
    refine ⟨⟨fun i hi => hgrows i (.inl hi), fun i hi => shape?_pushBoth _ _ _ _ ?_ ?_⟩,
      ⟨hgrows _ (.inl hp.mover), fun i hi => ?_⟩⟩
    · rintro rfl
      exact hi (hgrows _ (.inl hp.mover))
    · rintro rfl
      exact hi (hgrows _ (.inr rfl))
    · rcases List.mem_append.1 hi with hi | hi
      · exact hgrows i (.inl (hp.followups i hi))
      · exact hgrows i (.inr (List.mem_singleton.1 hi))
  · have hother : other ∈ p.progress.moved root := by
      by_contra hnew
      exact hold ⟨hbias, hnew⟩
    refine ⟨⟨fun _ => id, fun i hi => shape?_pushBoth _ _ _ _ ?_ ?_⟩, ⟨hp.mover, hp.followups⟩⟩
    · rintro rfl
      exact hi hp.mover
    · rintro rfl
      exact hi hother

theorem reports_clear (hbias : 0 < bias) (pushes : Nat) {p : Pass α} (hp : p.Noted root mover) :
    Reports root p.progress (clear around bias root mover pushes p).progress ∧
      (clear around bias root mover pushes p).Noted root mover := by
  induction pushes generalizing p with
  | zero => exact ⟨reports_cap root p.progress, ⟨hp.mover, hp.followups⟩⟩
  | succ pushes ih =>
    rw [clear]
    split
    · exact ⟨.refl root p.progress, hp⟩
    · rename_i next hnext
      obtain ⟨hfirst, hnoted⟩ := reports_answer? hbias hp hnext
      obtain ⟨hrest, hend⟩ := ih hnoted
      exact ⟨hfirst.trans hrest, hend⟩

/-! ## Resolutions -/

theorem reports_clearAll (hbias : 0 < bias) (depth : Nat) {mover : ShapeId} {p : Progress α}
    (hmover : mover ∈ p.moved root) :
    Reports root p (clearAll around bias root depth mover p) := by
  induction depth generalizing mover p with
  | zero =>
    have hpass : Reports root p _ :=
      (@reports_clear _ _ _ _ around _ hbias around.settings.maxPushes _ (noted_start hmover)).1
    rw [clearAll]
    split
    · exact hpass
    · exact hpass.trans (reports_cap root _)
  | succ depth ih =>
    obtain ⟨hpass, hnoted⟩ :=
      @reports_clear _ _ _ _ around _ hbias around.settings.maxPushes _ (noted_start hmover)
    rw [clearAll]
    refine hpass.trans ?_
    have hwait := hnoted.followups
    revert hwait
    generalize (clear around bias root mover around.settings.maxPushes ⟨p, []⟩).followups = others
    generalize (clear around bias root mover around.settings.maxPushes ⟨p, []⟩).progress = q
    intro hwait
    induction others generalizing q with
    | nil => exact .refl root q
    | cons other others ihothers =>
      have hturn := ih (hwait other List.mem_cons_self)
      refine hturn.trans (ihothers _ fun i hi => ?_)
      exact hturn.moved (hwait i (List.mem_cons_of_mem other hi))

/-- Whatever is neither the shape that a resolution is for nor reported is as it was, if the other
shape takes a share of each push. -/
theorem shape?_resolve (hbias : 0 < bias) (d : Diagram α) {i : ShapeId}
    (h : i ∉ mover :: (resolve around bias mover d).report.displaced) :
    (resolve around bias mover d).diagram.shape? i = d.shape? i :=
  (reports_clearAll hbias around.settings.maxFollowupDepth (p := ⟨d, ⟨0, [], false⟩⟩)
    List.mem_cons_self).still i h

/-! ## What is kept -/

section Keeps

variable {P : Progress α → Prop}

/-- What each answer and the note of a limit keep, clearing a shape keeps. -/
theorem clear_keeps
    (hanswer : ∀ p next : Pass α, answer? around bias root mover p = some next →
      P p.progress → P next.progress)
    (hcap : ∀ p, P p → P p.cap) (pushes : Nat) {p : Pass α} (h : P p.progress) :
    P (clear around bias root mover pushes p).progress := by
  induction pushes generalizing p with
  | zero => exact hcap _ h
  | succ pushes ih =>
    rw [clear]
    split
    · exact h
    · rename_i next hnext
      exact ih (hanswer p next hnext h)

theorem clearAll_keeps
    (hanswer : ∀ mover (p next : Pass α), answer? around bias root mover p = some next →
      P p.progress → P next.progress)
    (hcap : ∀ p, P p → P p.cap) (depth : Nat) {mover : ShapeId} {p : Progress α} (h : P p) :
    P (clearAll around bias root depth mover p) := by
  induction depth generalizing mover p with
  | zero =>
    have hpass : P (clear around bias root mover around.settings.maxPushes ⟨p, []⟩).progress :=
      clear_keeps (hanswer mover) hcap _ h
    rw [clearAll]
    split
    · exact hpass
    · exact hcap _ hpass
  | succ depth ih =>
    have hpass : P (clear around bias root mover around.settings.maxPushes ⟨p, []⟩).progress :=
      clear_keeps (hanswer mover) hcap _ h
    rw [clearAll]
    exact Running.foldl_keeps (P := P) (fun _ _ hq => ih hq) _ hpass

end Keeps

/-- What shifting a shape keeps, an answer keeps. -/
theorem answer?_keeps {P : Diagram α → Prop} (hP : ∀ d id delta, P d → P (d.shiftBy id delta))
    {p next : Pass α} (hnext : answer? around bias root mover p = some next)
    (h : P p.progress.diagram) : P next.progress.diagram := by
  have hboth : ∀ push other otherPush,
      P (pushBoth around.settings p.progress.diagram mover push other otherPush) :=
    fun push other otherPush => hP _ mover _ (hP _ other _ h)
  obtain ⟨push, rfl⟩ | ⟨push, other, otherPush, d, rfl, -, ⟨-, -, rfl⟩ | ⟨-, rfl⟩⟩ :=
    answer?_cases hnext
  · exact hP _ mover _ h
  · exact hboth push other otherPush
  · exact hboth push other otherPush

/-- What shifting a shape keeps, resolving collisions keeps. -/
theorem resolve_keeps {P : Diagram α → Prop} (hP : ∀ d id delta, P d → P (d.shiftBy id delta))
    {d : Diagram α} (h : P d) : P (resolve around bias mover d).diagram :=
  clearAll_keeps (P := fun p => P p.diagram) (fun _ _ _ hnext => answer?_keeps hP hnext)
    (fun _ => id) _ h

/-! ## Without a share -/

/-- Without a share nothing is reported. -/
theorem displaced_resolve_of_not_pos (hbias : ¬ 0 < bias) (d : Diagram α) :
    (resolve around bias mover d).report.displaced = [] := by
  refine clearAll_keeps (P := fun p => p.report.displaced = []) (fun _ p next hnext h => ?_)
    (fun _ => id) _ rfl
  obtain ⟨push, rfl⟩ | ⟨push, other, otherPush, d, rfl, -, ⟨hpos, -⟩ | ⟨-, rfl⟩⟩ :=
    answer?_cases hnext
  · exact h
  · exact absurd hpos hbias
  · exact h

/-- A shape other than the mover that comes out of a resolution with another shift is reported just
when the other shape takes a share of each push. -/
theorem mem_displaced_iff_of_shift_ne {d : Diagram α} {i : ShapeId} (hi : i ≠ mover)
    (hshift : (resolve around bias mover d).diagram.shift? i ≠ d.shift? i) :
    i ∈ (resolve around bias mover d).report.displaced ↔ 0 < bias := by
  constructor
  · intro hmem
    by_contra hbias
    rw [displaced_resolve_of_not_pos hbias] at hmem
    cases hmem
  · intro hbias
    by_contra hmem
    have hstill := shape?_resolve hbias d (List.not_mem_cons_of_ne_of_not_mem hi hmem)
    exact hshift (congrArg (Option.map Shape.shift) hstill)

/-- An input at the left edge of the canvas, and a step that it overlaps. -/
def edgeInput : Diagram Double :=
  blank.after
    [.addShape (.rawInput "r" ⟨(20 : Nat), (300 : Nat)⟩),
     .addShape (.step "f" [⟨"x", none⟩] [⟨"y", none⟩] ⟨(78 : Nat), (300 : Nat)⟩)]

theorem mem_displaced_edgeInput :
    ((⟨1⟩ : ShapeId) ≠ ⟨0⟩ ∧
      (resolve ⟨.standard, none⟩ (Scalar.half 1) ⟨0⟩ edgeInput).diagram.shift? ⟨1⟩ ≠
        edgeInput.shift? ⟨1⟩) ∧
    ⟨1⟩ ∈ (resolve ⟨.standard, none⟩ (Scalar.half 1) ⟨0⟩ edgeInput).report.displaced := by
  have hne : (⟨1⟩ : ShapeId) ≠ ⟨0⟩ := by decide
  have hshift : (resolve ⟨.standard, none⟩ (Scalar.half 1) ⟨0⟩ edgeInput).diagram.shift? ⟨1⟩ ≠
      edgeInput.shift? ⟨1⟩ := by
    decide +kernel
  exact ⟨⟨hne, hshift⟩, (mem_displaced_iff_of_shift_ne hne hshift).2 (by decide +kernel)⟩

/-- Without a share of its own, the step makes up for what the input loses at the edge of the
canvas, and no report tells of it. -/
theorem not_mem_displaced_edgeInput :
    (edgeInput.Reachable ∧ (Settings.standard : Settings Double).validate = .ok ()) ∧
    (resolve ⟨.standard, none⟩ 0 ⟨0⟩ edgeInput).diagram.shift? ⟨1⟩ ≠ edgeInput.shift? ⟨1⟩ ∧
    ⟨1⟩ ∉ (resolve ⟨.standard, none⟩ 0 ⟨0⟩ edgeInput).report.displaced := by
  refine ⟨⟨⟨_, ?_, rfl⟩, ?_⟩, ?_, ?_⟩
  · simp [Change.Built, Shape.Built.rawInput, Shape.Built.step]
  · decide +kernel
  · decide +kernel
  · decide +kernel

end Collision

end Patchbay
