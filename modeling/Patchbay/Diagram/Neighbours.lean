import Patchbay.Diagram.Basic

/-!
# Neighbours in a diagram

Which shapes a cable joins to a shape, along the cables and against them, and which shapes lie
downstream at any distance. The search keeps a stack of shapes to look at and the shapes it has
looked at. It ends because each round takes a shape off the stack or looks at one more of finitely
many.
-/

namespace Patchbay

namespace Diagram

variable {α : Type}

/-- The shapes one cable downstream, without repetition. -/
def successors (d : Diagram α) (id : ShapeId) : List ShapeId :=
  match d.shape? id with
  | none => []
  | some s =>
    ((s.outputs.flatMap (·.cables)).filterMap fun c => do
      let cable ← d.cable? c
      let t ← cable.dest
      return t.shape).eraseDups

/-- For each input magnet, the shape that feeds it. -/
def feeders (d : Diagram α) (id : ShapeId) : List (Option ShapeId) :=
  match d.shape? id with
  | none => []
  | some s => s.inputs.map fun m => (m.cables.filterMap d.cable?).head?.map (·.source.shape)

/-- The inputs of the pipeline that feed the shape by a cable, without repetition. -/
def feedingInputs (d : Diagram α) (id : ShapeId) : List ShapeId :=
  (((d.feeders id).filterMap fun s => s).filter fun s => (d.shape? s).any (·.isInput)).eraseDups

/-! ## Reachability -/

/-- The number of slots whose shape has not been looked at. -/
def unseen (d : Diagram α) (seen : List ShapeId) : Nat :=
  (List.range d.shapeSlots.size).countP fun i => ⟨i⟩ ∉ seen

theorem countP_lt_countP {β : Type} {p q : β → Bool} {l : List β} {x : β} (hx : x ∈ l)
    (hq : q x = true) (hp : p x = false) (h : ∀ y, p y = true → q y = true) :
    l.countP p < l.countP q := by
  induction l with
  | nil => cases hx
  | cons y l ih =>
    have hle : l.countP p ≤ l.countP q := List.countP_mono_left fun z _ => h z
    simp only [List.countP_cons]
    rcases List.mem_cons.1 hx with rfl | hx
    · simp [hp, hq]
      omega
    · have hlt := ih hx
      have hy : (if p y = true then 1 else 0) ≤ (if q y = true then 1 else 0) := by
        by_cases hpy : p y = true
        · simp [hpy, h y hpy]
        · simp [hpy]
      omega

theorem unseen_cons_lt {d : Diagram α} {seen : List ShapeId} {id : ShapeId}
    (hnew : id ∉ seen) (hlive : (d.shape? id).isSome) : d.unseen (id :: seen) < d.unseen seen := by
  obtain ⟨s, hs⟩ := Option.isSome_iff_exists.1 hlive
  refine countP_lt_countP (x := id.slot) (List.mem_range.2 (Arena.lt_size_of_get? hs)) ?_ ?_ ?_
  · simpa using hnew
  · simp
  · intro i hi
    simp only [decide_eq_true_eq, List.mem_cons, not_or] at hi ⊢
    exact hi.2

/-- Search for `target` from the shapes on the stack. -/
def search (d : Diagram α) (target : ShapeId) (seen : List ShapeId) : List ShapeId → Bool
  | [] => false
  | current :: rest =>
    if current = target then true
    else if _h : current ∈ seen ∨ (d.shape? current).isNone then search d target seen rest
    else search d target (current :: seen) (d.successors current ++ rest)
termination_by stack => (d.unseen seen, stack.length)
decreasing_by
  · exact Prod.Lex.right _ (by simp)
  · refine Prod.Lex.left _ _ (unseen_cons_lt (fun hs => _h (.inl hs)) ?_)
    cases hc : d.shape? current with
    | none => exact absurd (.inr (by simp [hc])) _h
    | some s => rfl

/-- `target` is `source` or lies downstream of it. -/
def reaches (d : Diagram α) (source target : ShapeId) : Bool := d.search target [] [source]

end Diagram

end Patchbay
