import Patchbay.Proofs.Exact
import Patchbay.Proofs.Collision.Limits

/-!
# The edges of the canvas

On scalars without rounding, a push leaves both of the shapes that it moves on the canvas: each of
them lies within the edges along each axis on which it is smaller than the canvas, and in the middle
along the others (`onCanvas_shifted`). The mover is moved back last, and so what it takes over from
the other shape does not carry it over an edge again.

A shape stays where it is until it is pushed again, so that all shapes that have been pushed are on
the canvas at the end of a resolution. Where the pushes point plays no part in this. That is said by
a resolution whose pushes are given by any function of the two centres, and which keeps a record of
the shapes that are pushed (`Tracked.resolve`). With the push along the line between the centres it
is the resolution itself (`Tracked.snd_resolve_pushAway`).
-/

namespace Patchbay

namespace Collision

variable {α : Type}

/-! ## Shapes on the canvas -/

section

variable [Scalar α]

/-- The stretch of the given start and size lies between `lo` and `hi` if it is the smaller one, and
in the middle between them if not. -/
def Seated (start size lo hi : α) : Prop :=
  if size < hi - lo then lo ≤ start ∧ start + size ≤ hi
  else start + Scalar.half size = Scalar.half (lo + hi)

/-- The shape lies on the canvas, as far as it is smaller than the canvas, and in the middle of it
otherwise. -/
structure OnCanvas (settings : Settings α) (s : Shape α) : Prop where
  across : Seated s.bounds.x s.bounds.width settings.bounds.x settings.bounds.right
  down : Seated s.bounds.y s.bounds.height settings.bounds.y settings.bounds.bottom

/-- The shapes of the record are on the canvas in the diagram `d`, and all others are as they were
in `d₀`. -/
structure Recorded (settings : Settings α) (d₀ : Diagram α) (record : List ShapeId)
    (d : Diagram α) : Prop where
  onCanvas : ∀ i ∈ record, ∃ s, d.shape? i = some s ∧ OnCanvas settings s
  still : ∀ i ∉ record, d.shape? i = d₀.shape? i

end

section

variable [ExactScalar α] {settings : Settings α} {d₀ d : Diagram α} {record : List ShapeId}
  {mover other : ShapeId}

theorem seated_add_intoRange (start size lo hi : α) :
    Seated (start + intoRange start size lo hi) size lo hi := by
  simp only [Seated, intoRange, Scalar.half_eq]
  by_cases hsize : hi - lo ≤ size
  · rw [if_neg hsize.not_gt, if_pos hsize]
    ring
  · rw [if_pos (not_le.1 hsize), if_neg hsize]
    have hroom : size < hi - lo := not_le.1 hsize
    split
    · constructor <;> linarith
    · split
      · constructor <;> linarith
      · constructor <;> linarith

/-- The outline is shifted along with the shape. -/
theorem bounds_shifted (s : Shape α) (p : Point α) :
    ({ s with shift := s.shift + p } : Shape α).bounds =
      ⟨s.bounds.x + p.x, s.bounds.y + p.y, s.bounds.width, s.bounds.height⟩ := by
  have hmoved : ∀ position shift half by_ : α,
      position + (shift + by_) - half = position + shift - half + by_ := by
    intros
    ring
  exact congrArg₂ (fun x y => (⟨x, y, s.bounds.width, s.bounds.height⟩ : Box α))
    (hmoved _ _ _ _) (hmoved _ _ _ _)

/-- A shape that has been pushed and moved back is on the canvas. -/
theorem onCanvas_shifted (settings : Settings α) (s : Shape α) (push : Point α) :
    OnCanvas settings { s with shift := s.shift + (push + overflow settings s push) } := by
  constructor
  · rw [bounds_shifted, Point.add_x, ← add_assoc]
    exact seated_add_intoRange _ _ _ _
  · rw [bounds_shifted, Point.add_y, ← add_assoc]
    exact seated_add_intoRange _ _ _ _

theorem Recorded.pushOne (h : Recorded settings d₀ record d) (hmover : (d.shape? mover).isSome)
    (push : Point α) :
    Recorded settings d₀ (mover :: record) (pushOne settings d mover push) := by
  obtain ⟨s, hs⟩ := Option.isSome_iff_exists.1 hmover
  constructor
  · intro i hi
    by_cases heq : i = mover
    · subst heq
      refine ⟨_, ?_, onCanvas_shifted settings s push⟩
      rw [Collision.pushOne, Diagram.shape?_shiftBy, if_pos rfl, overflowAt, hs]
      rfl
    · rw [shape?_pushOne settings d push heq]
      exact h.onCanvas i (List.mem_of_ne_of_mem heq hi)
  · intro i hi
    obtain ⟨hne, hi⟩ := List.ne_and_not_mem_of_not_mem_cons hi
    exact (shape?_pushOne settings d push hne).trans (h.still i hi)

theorem Recorded.pushBoth (h : Recorded settings d₀ record d) (hne : other ≠ mover)
    (hmover : (d.shape? mover).isSome) (hother : (d.shape? other).isSome)
    (push otherPush : Point α) :
    Recorded settings d₀ (mover :: other :: record)
      (pushBoth settings d mover push other otherPush) := by
  rw [pushBoth_eq hne]
  refine (h.pushOne hother _).pushOne ?_ _
  rwa [shape?_pushOne settings d _ hne.symm]

end

/-! ## Resolutions with a record -/

namespace Tracked

section

variable [Scalar α] (away : Point α → Point α → Point α) (around : Surroundings α) (bias : α)
  (root : ShapeId)

/-- The push away from something that does not move, where `away` gives the push from one centre
to another. -/
def pushOff (s : Shape α) (obstacle : Point α) : Point α :=
  let settings := around.settings
  let push := away s.centre obstacle
  let blocked := (push + overflow settings s push).length < Scalar.half settings.pushStep
  if blocked ∨ (s.centre - obstacle).length < Scalar.tiny then
    let inward := away settings.bounds.center obstacle
    if inward.Same Point.origin then push else inward
  else push

/-- Answer the first overlap of the mover, and name the shapes that are pushed. -/
def answer? (mover : ShapeId) (p : Pass α) : Option (List ShapeId × Pass α) := do
  let settings := around.settings
  let d := p.progress.diagram
  let s ← d.shape? mover
  if s.isFixed then failure
  match around.obstacle.filter (s.Overlaps ·) with
  | some obstacle =>
    return ([mover], p.pushed (pushOne settings d mover (pushOff away around s obstacle.centre)))
  | none =>
    let (id, other) ← d.shapes.find? fun (id, other) => id ≠ mover ∧ s.Overlaps other
    if other.isFixed then
      return ([mover], p.pushed (pushOne settings d mover (pushOff away around s other.centre)))
    else
      let push := away s.centre other.centre
      let next := p.pushed (pushBoth settings d mover (push * (1 - bias)) id (push * (-bias)))
      if 0 < bias ∧ id ∉ root :: p.progress.report.displaced then
        return ([mover, id], next.aside id)
      else return ([mover, id], next)

/-- Answer overlaps of the mover until there are none, or the given number has been answered. The
record tells which shapes are pushed, the last push first. -/
def clear (mover : ShapeId) : Nat → List ShapeId × Pass α → List ShapeId × Pass α
  | 0, (record, p) => (record, { p with progress := p.progress.cap })
  | pushes + 1, (record, p) =>
    match answer? away around bias root mover p with
    | none => (record, p)
    | some (ids, next) => clear mover pushes (ids ++ record, next)

/-- Clear the mover, and then the shapes that it has pushed aside, down to the given depth. -/
def clearAll : Nat → ShapeId → List ShapeId × Progress α → List ShapeId × Progress α
  | 0, mover, (record, p) =>
    let (record, pass) := clear away around bias root mover around.settings.maxPushes
      (record, ⟨p, []⟩)
    (record, if pass.followups.isEmpty then pass.progress else pass.progress.cap)
  | depth + 1, mover, (record, p) =>
    let (record, pass) := clear away around bias root mover around.settings.maxPushes
      (record, ⟨p, []⟩)
    pass.followups.foldl (fun q other => clearAll depth other q) (record, pass.progress)

/-- Push a shape and everything in its way apart, with a record of all shapes that are pushed. -/
def resolve (mover : ShapeId) (d : Diagram α) : List ShapeId × Progress α :=
  clearAll away around bias mover around.settings.maxFollowupDepth mover ([], ⟨d, ⟨0, [], false⟩⟩)

end

/-! ## The pushes of a resolution -/

section

variable [Scalar α] {around : Surroundings α} {bias : α} {root mover : ShapeId}

theorem map_answer?_pushAway (p : Pass α) :
    (answer? (pushAway around.settings) around bias root mover p).map Prod.snd =
      Collision.answer? around bias root mover p := by
  rw [answer?, Collision.answer?, Option.bind_eq_bind, Option.bind_eq_bind, Option.map_bind]
  refine Option.bind_congr fun s _ => ?_
  dsimp only [Function.comp]
  by_cases hfixed : s.isFixed
  · rw [if_pos hfixed, if_pos hfixed]
    rfl
  rw [if_neg hfixed, if_neg hfixed]
  cases around.obstacle.filter (s.Overlaps ·) with
  | some obstacle => rfl
  | none =>
    refine (Option.map_bind ..).trans (Option.bind_congr fun found _ => ?_)
    obtain ⟨id, other⟩ := found
    dsimp only [Function.comp]
    split
    · rfl
    · split <;> rfl

theorem snd_clear_pushAway (pushes : Nat) (record : List ShapeId) (p : Pass α) :
    (clear (pushAway around.settings) around bias root mover pushes (record, p)).2 =
      Collision.clear around bias root mover pushes p := by
  induction pushes generalizing record p with
  | zero => rfl
  | succ pushes ih =>
    rw [clear, Collision.clear, ← map_answer?_pushAway]
    cases answer? (pushAway around.settings) around bias root mover p with
    | none => rfl
    | some next => exact ih _ _

theorem snd_clearAll_pushAway (depth : Nat) (mover : ShapeId) (q : List ShapeId × Progress α) :
    (clearAll (pushAway around.settings) around bias root depth mover q).2 =
      Collision.clearAll around bias root depth mover q.2 := by
  obtain ⟨record, p⟩ := q
  induction depth generalizing mover record p with
  | zero =>
    rw [clearAll, Collision.clearAll, ← snd_clear_pushAway around.settings.maxPushes record]
  | succ depth ih =>
    rw [clearAll, Collision.clearAll, ← snd_clear_pushAway around.settings.maxPushes record]
    exact (List.foldl_hom Prod.snd fun q other => (ih other q.1 q.2).symm).symm

/-- A resolution with the push along the line between the centres is a resolution. -/
theorem snd_resolve_pushAway (mover : ShapeId) (d : Diagram α) :
    (resolve (pushAway around.settings) around bias mover d).2 =
      Collision.resolve around bias mover d :=
  snd_clearAll_pushAway _ mover _

end

/-! ## What the record says -/

section

variable [ExactScalar α] {away : Point α → Point α → Point α} {around : Surroundings α} {bias : α}
  {root mover : ShapeId} {d₀ d : Diagram α} {record : List ShapeId}

theorem recorded_answer? {p next : Pass α} {ids : List ShapeId}
    (h : Recorded around.settings d₀ record p.progress.diagram)
    (hnext : answer? away around bias root mover p = some (ids, next)) :
    Recorded around.settings d₀ (ids ++ record) next.progress.diagram := by
  obtain ⟨s, hs, hnext⟩ := Option.bind_eq_some_iff.1 hnext
  have hmover : (p.progress.diagram.shape? mover).isSome := Option.isSome_of_mem hs
  by_cases hfixed : s.isFixed
  · rw [if_pos hfixed] at hnext
    cases hnext
  rw [if_neg hfixed] at hnext
  split at hnext
  · cases hnext
    exact h.pushOne hmover _
  · obtain ⟨⟨id, other⟩, hfind, hnext⟩ := Option.bind_eq_some_iff.1 hnext
    have hother : (p.progress.diagram.shape? id).isSome :=
      Option.isSome_of_mem (Diagram.mem_shapes_iff.1 (List.mem_of_find?_eq_some hfind)).2
    have hne : id ≠ mover := by
      have hfound := List.find?_some hfind
      exact (of_decide_eq_true hfound).1
    dsimp only at hnext
    split at hnext
    · cases hnext
      exact h.pushOne hmover _
    · split at hnext
      · cases hnext
        exact h.pushBoth hne hmover hother _ _
      · cases hnext
        exact h.pushBoth hne hmover hother _ _

theorem recorded_clear (pushes : Nat) {p : Pass α}
    (h : Recorded around.settings d₀ record p.progress.diagram) :
    Recorded around.settings d₀ (clear away around bias root mover pushes (record, p)).1
      (clear away around bias root mover pushes (record, p)).2.progress.diagram := by
  induction pushes generalizing record p with
  | zero => exact h
  | succ pushes ih =>
    rw [clear]
    split
    · exact h
    · rename_i hnext
      exact ih (recorded_answer? h hnext)

theorem recorded_clearAll (depth : Nat) {mover : ShapeId} {q : List ShapeId × Progress α}
    (h : Recorded around.settings d₀ q.1 q.2.diagram) :
    Recorded around.settings d₀ (clearAll away around bias root depth mover q).1
      (clearAll away around bias root depth mover q).2.diagram := by
  induction depth generalizing mover q with
  | zero =>
    rw [clearAll]
    dsimp only
    split
    · exact recorded_clear _ h
    · exact recorded_clear _ h
  | succ depth ih =>
    rw [clearAll]
    exact Running.foldl_keeps
      (P := fun q : List ShapeId × Progress α => Recorded around.settings d₀ q.1 q.2.diagram)
      (fun q other hq => ih hq) _ (recorded_clear _ h)

/-- **The edges of the canvas.** Wherever the pushes of a resolution point, all shapes that are
pushed are on the canvas at its end, and all others are as they were. With the push along the line
between the centres, this is what becomes of the diagram in a resolution. -/
theorem onCanvas_of_resolve (away : Point α → Point α → Point α) (around : Surroundings α)
    (bias : α) (mover : ShapeId) (d : Diagram α) :
    ((∀ i ∈ (resolve away around bias mover d).1,
        ∃ s, (resolve away around bias mover d).2.diagram.shape? i = some s ∧
          OnCanvas around.settings s) ∧
      ∀ i ∉ (resolve away around bias mover d).1,
        (resolve away around bias mover d).2.diagram.shape? i = d.shape? i) ∧
    (resolve (pushAway around.settings) around bias mover d).2 =
      Collision.resolve around bias mover d := by
  have hend : Recorded around.settings d (resolve away around bias mover d).1
      (resolve away around bias mover d).2.diagram :=
    recorded_clearAll _ ⟨fun _ hi => absurd hi List.not_mem_nil, fun _ _ => rfl⟩
  exact ⟨⟨hend.onCanvas, hend.still⟩, snd_resolve_pushAway mover d⟩

end

/-- Two steps that overlap on a canvas which is too narrow for both. -/
def wedged : Diagram ℚ :=
  (Diagram.blank.addShape (.step "f" [⟨"x", none⟩] [⟨"y", none⟩] (⟨40, 300⟩ : Point ℚ))).addShape
    (.step "g" [⟨"x", none⟩] [⟨"y", none⟩] (⟨110, 300⟩ : Point ℚ))

/-- The canvas that holds them, on which the mover is given up after two pushes. -/
def narrow : Surroundings ℚ :=
  ⟨{ Settings.standard with width := 150, maxPushes := 2, maxFollowupDepth := 0 }, none⟩

/-- Each of them is pushed against its edge of the canvas, and neither leaves it. -/
theorem onCanvas_wedged :
    (resolve (pushAway narrow.settings) narrow (1 / 2) ⟨0⟩ wedged).1 = [⟨0⟩, ⟨1⟩, ⟨0⟩, ⟨1⟩] ∧
    ∃ s, (resolve (pushAway narrow.settings) narrow (1 / 2) ⟨0⟩ wedged).2.diagram.shape? ⟨1⟩ =
      some s ∧ OnCanvas narrow.settings s := by
  have hrecord : (resolve (pushAway narrow.settings) narrow (1 / 2) ⟨0⟩ wedged).1 =
      [⟨0⟩, ⟨1⟩, ⟨0⟩, ⟨1⟩] := by
    decide +kernel
  refine ⟨hrecord, (onCanvas_of_resolve _ narrow (1 / 2) ⟨0⟩ wedged).1.1 ⟨1⟩ ?_⟩
  rw [hrecord]
  decide

end Tracked

end Collision

end Patchbay
