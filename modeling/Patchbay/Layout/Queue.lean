import Patchbay.Shape.Id

/-!
# Keeping a phase in order

The steps of a phase are found along cables, in any order. They join their layer in the order of
the phase: a step that is found before its turn waits, and joins as soon as the steps before it
have.
-/

namespace Patchbay

namespace Layout

/-- The steps of a phase that have not joined their layer, in order, and those of the steps found
that wait for their turn. -/
structure Queue where
  pending : List ShapeId
  waiting : List ShapeId

namespace Queue

/-- The queue of a phase of which nothing has been found. -/
def ofPhase (phase : List ShapeId) : Queue := ⟨phase, []⟩

/-- Split off the pending steps that can join now because they wait. -/
def release : (pending waiting : List ShapeId) → List ShapeId × Queue
  | [], waiting => ([], ⟨[], waiting⟩)
  | next :: rest, waiting =>
    if next ∈ waiting then
      let (joined, queue) := release rest (waiting.erase next)
      (next :: joined, queue)
    else ([], ⟨next :: rest, waiting⟩)

/-- Note that a step has been found. The result is what joins the layer. -/
def offer (q : Queue) (id : ShapeId) : List ShapeId × Queue :=
  match q.pending with
  | next :: rest =>
    if next = id then
      let (joined, queue) := release rest q.waiting
      (id :: joined, queue)
    else ([], if id ∈ q.waiting then q else ⟨q.pending, q.waiting ++ [id]⟩)
  | [] => ([], if id ∈ q.waiting then q else ⟨[], q.waiting ++ [id]⟩)

/-- What joins the layer at the end: the rest of the phase, found or not. -/
def finish (q : Queue) : List ShapeId :=
  let (joined, queue) := release q.pending q.waiting
  joined ++ queue.pending

/-! ## What joins -/

/-- What joins and what is pending then are what was pending. -/
theorem release_append (pending waiting : List ShapeId) :
    (release pending waiting).1 ++ (release pending waiting).2.pending = pending := by
  induction pending generalizing waiting with
  | nil => rfl
  | cons next rest ih =>
    rw [release]
    split
    · exact congrArg (next :: ·) (ih _)
    · rfl

theorem offer_append (q : Queue) (id : ShapeId) :
    (q.offer id).1 ++ (q.offer id).2.pending = q.pending := by
  obtain ⟨pending, waiting⟩ := q
  cases pending with
  | nil =>
    simp only [offer]
    split <;> rfl
  | cons next rest =>
    simp only [offer]
    split
    · rename_i h
      rw [h]
      exact congrArg (id :: ·) (release_append rest waiting)
    · split <;> rfl

theorem finish_eq (q : Queue) : q.finish = q.pending := release_append q.pending q.waiting

end Queue

end Layout

end Patchbay
