import Patchbay.Proofs.Diagram.Isomorphic
import Patchbay.Proofs.Diagram.Places

/-!
# Phases under other names

Isomorphic diagrams have the same steps in each phase, up to the names. In which order they come
there depends on where they are and, where that does not tell, on the order of all steps. If the
shapes of the other diagram are at the same places and its steps come in the order of execution, its
phases are the same lists (`Isomorphism.compute`): the rounds find the steps of each phase in the
order in which they are read (`Isomorphism.formed`), and sorting leaves them as they are.
-/

namespace Patchbay

open Diagram

variable {α : Type} {d e : Diagram α} {f : ShapeId → ShapeId} {g : CableId → CableId}
  {id : ShapeId} {placed placed' remaining : List ShapeId} {layers : List (List ShapeId)}

namespace Phases

/-! ## Rounds -/

/-- A list whose first part has a property that the rest lacks is divided by it. -/
theorem filter_append_of_forall {β : Type} {p : β → Bool} {xs ys : List β}
    (hx : ∀ x ∈ xs, p x = true) (hy : ∀ y ∈ ys, p y = false) :
    (xs ++ ys).filter p = xs ∧ (xs ++ ys).filter (fun x => !p x) = ys := by
  rw [List.filter_append, List.filter_append, List.filter_eq_self.2 hx,
    List.filter_eq_nil_iff.2 fun y h => by simp [hy y h],
    List.filter_eq_nil_iff.2 fun x h => by simp [hx x h],
    List.filter_eq_self.2 fun y h => by simp [hy y h], List.append_nil, List.nil_append]
  exact ⟨rfl, rfl⟩

/-- The rounds that form phases are carried out. -/
theorem form_of_formed {limit rounds : Nat} (h : Formed d placed remaining layers)
    (hlen : remaining.length ≤ rounds) : form d limit rounds placed remaining = .ok layers := by
  induction h generalizing rounds with
  | done placed => cases rounds <;> rfl
  | @round placed remaining layers hne _ ih =>
    have hlt := length_filter_not_lt hne
    match rounds, remaining with
    | 0, [] => simp at hne
    | rounds + 1, [] => simp at hne
    | rounds + 1, x :: xs =>
      have hnot : not ∘ isReady d placed = fun id => !isReady d placed id := rfl
      rw [form, List.partition_eq_filter_filter, hnot]
      · dsimp only
        rw [if_neg (by simpa using hne), ih (by omega)]
        rfl
      · simp

/-! ## Reading order -/

section

variable [Scalar α] {ids : List ShapeId}

theorem isSome_body?_of_mem_steps (hd : d.Sound []) (hid : id ∈ d.steps) : (d.body? id).isSome :=
  isSome_body?_of_has (hd.mem_steps.1 hid)

/-- Shapes are compared by where they are. -/
theorem compareReading_eq (d : Diagram α) (i j : ShapeId) : compareReading d i j =
    ((d.centre? i).bind fun p => (d.centre? j).map (Isometric.readingOrder p)).getD .eq := by
  unfold compareReading centre?
  cases d.shape? i <;> cases d.shape? j <;> rfl

variable [Std.TransCmp (Isometric.readingOrder (α := α))]

theorem compareReading_swap (d : Diagram α) (i j : ShapeId) :
    compareReading d j i = (compareReading d i j).swap := by
  unfold compareReading
  cases d.shape? i <;> cases d.shape? j <;> try rfl
  change Isometric.readingOrder _ _ = (Isometric.readingOrder _ _).swap
  exact Std.OrientedCmp.eq_swap

/-- Shapes that have been put into the order in which they are read are in that order under other
names too. -/
theorem inReading_map (hcentre : ∀ id ∈ ids, e.centre? (f id) = d.centre? id)
    (hlive : ∀ id ∈ ids, (d.shape? id).isSome) :
    inReading e ((inReading d ids).map f) = (inReading d ids).map f := by
  have hmem : ∀ {id}, id ∈ inReading d ids ↔ id ∈ ids := (stableSort_perm _ ids).mem_iff
  refine stableSort_of_pairwise (List.pairwise_map.2 ?_)
  refine (pairwise_stableSort (orders_compareReading hlive)).imp_of_mem fun {a b} ha hb hab => ?_
  rw [compareReading_eq, hcentre b (hmem.1 hb), hcentre a (hmem.1 ha), ← compareReading_eq,
    compareReading_swap d a b]
  rcases hab with hlt | ⟨heq, -⟩
  · rw [hlt]
    exact fun hgt => (by cases hgt)
  · rw [heq]
    exact fun hgt => (by cases hgt)

theorem sortLayer_map (hcentre : ∀ id ∈ ids, e.centre? (f id) = d.centre? id)
    (hlive : ∀ id ∈ ids, (d.shape? id).isSome) :
    sortLayer e ((sortLayer d ids).map f) = (sortLayer d ids).map f := by
  have hlen : ((sortLayer d ids).map f).length = ids.length := by
    rw [List.length_map, (sortLayer_perm d ids).length_eq]
  rw [sortLayer, hlen]
  split
  · rename_i hshared
    rw [sortLayer, if_pos hshared]
    exact inReading_map hcentre hlive
  · rfl

end

end Phases

namespace Diagram.Isomorphism

open Phases

variable [Scalar α]

/-! ## Readiness -/

theorem mem_steps_iff (h : Isomorphism d e f g) (hd : d.Sound []) (he : e.Sound [])
    (hid : (d.body? id).isSome) : f id ∈ e.steps ↔ id ∈ d.steps := by
  rw [he.mem_steps, hd.mem_steps, h.has_eq bodily_isStep hid]

/-- If no step lacks a cable and the same steps are placed, a step is ready in the one diagram when
it is in the other. -/
theorem isReady_eq (h : Isomorphism d e f g) (hd : d.Sound []) (he : e.Sound [])
    (hcabled : ∀ id ∈ d.steps, Cabled d id) (hcabled' : ∀ id ∈ e.steps, Cabled e id)
    (hplaced : ∀ a ∈ d.steps, f a ∈ placed' ↔ a ∈ placed) (hid : id ∈ d.steps) :
    isReady e placed' (f id) = isReady d placed id := by
  have hlive := isSome_body?_of_mem_steps hd hid
  have hid' := (h.mem_steps_iff hd he hlive).2 hid
  rw [Bool.eq_iff_iff, isReady_iff hd.toWired hd.toShapesListed hid,
    isReady_iff he.toWired he.toShapesListed hid', and_iff_right (hcabled id hid),
    and_iff_right (hcabled' _ hid')]
  constructor
  · rintro hall a ⟨ha, -, hfeeds⟩
    refine (hplaced a ha).1 (hall _ ⟨?_, hid', h.feeds hfeeds⟩)
    exact (h.mem_steps_iff hd he (isSome_body?_of_mem_steps hd ha)).2 ha
  · rintro hall b ⟨hb, -, hfeeds⟩
    obtain ⟨a, ha, rfl⟩ := h.exists_feeds hd.toLinked hlive hfeeds
    have hstep := (h.mem_steps_iff hd he (hd.toLinked.feeds_live_left ha)).1 hb
    exact (hplaced a hstep).2 (hall a ⟨hstep, hid, ha⟩)

/-- If the steps that remain come phase by phase, each phase in some order, the rounds form the same
phases, each in that order. -/
theorem formed (h : Isomorphism d e f g) (hd : d.Sound []) (he : e.Sound [])
    (hcabled : ∀ id ∈ d.steps, Cabled d id) (hcabled' : ∀ id ∈ e.steps, Cabled e id)
    {sort : List ShapeId → List ShapeId} (hsort : ∀ layer, (sort layer).Perm layer)
    (hformed : Formed d placed remaining layers) (hsteps : ∀ id ∈ remaining, id ∈ d.steps)
    (hplaced : ∀ a ∈ d.steps, f a ∈ placed' ↔ a ∈ placed) :
    Formed e placed' ((layers.map sort).flatten.map f)
      ((layers.map sort).map (List.map f)) := by
  induction hformed generalizing placed' with
  | done => exact .done placed'
  | @round placed remaining layers hne hrest ih =>
    have hready : ∀ id ∈ remaining, isReady e placed' (f id) = isReady d placed id :=
      fun id hid => h.isReady_eq hd he hcabled hcabled' hplaced (hsteps id hid)
    have hfirst : ∀ id, id ∈ sort (remaining.filter (isReady d placed)) ↔
        id ∈ remaining ∧ isReady d placed id = true := fun id => by
      rw [(hsort _).mem_iff, List.mem_filter]
    have hlater : ∀ id, id ∈ (layers.map sort).flatten ↔
        id ∈ remaining ∧ isReady d placed id = false := fun id => by
      rw [((flatten_map_perm hsort layers).trans hrest.flatten_perm).mem_iff, List.mem_filter,
        Bool.not_eq_true']
    rw [List.map_cons, List.flatten_cons, List.map_append, List.map_cons]
    generalize sort (remaining.filter (isReady d placed)) = now at hfirst ⊢
    generalize (layers.map sort).flatten = later at hlater ih ⊢
    have hnow : ∀ x ∈ now.map f, isReady e placed' x = true := by
      intro x hx
      obtain ⟨id, hid, rfl⟩ := List.mem_map.1 hx
      obtain ⟨hmem, hr⟩ := (hfirst id).1 hid
      rw [hready id hmem, hr]
    have hthen : ∀ x ∈ later.map f, isReady e placed' x = false := by
      intro x hx
      obtain ⟨id, hid, rfl⟩ := List.mem_map.1 hx
      obtain ⟨hmem, hr⟩ := (hlater id).1 hid
      rw [hready id hmem, hr]
    obtain ⟨hnow, hthen⟩ := filter_append_of_forall hnow hthen
    have hround := @Formed.round α e placed' (now.map f ++ later.map f)
      ((layers.map sort).map (List.map f))
    rw [hnow, hthen] at hround
    refine hround ?_ (ih (fun id hid => hsteps id (List.mem_filter.1 hid).1) fun a ha => ?_)
    · obtain ⟨x, hx⟩ := List.exists_mem_of_ne_nil _ hne
      exact List.ne_nil_of_mem (List.mem_map_of_mem ((hfirst x).2 (List.mem_filter.1 hx)))
    · have hmem : f a ∈ now.map f ↔ a ∈ now := by
        rw [List.mem_map]
        refine ⟨?_, fun ha => ⟨a, ha, rfl⟩⟩
        rintro ⟨x, hx, heq⟩
        have hxs := isSome_body?_of_mem_steps hd (hsteps x ((hfirst x).1 hx).1)
        rwa [← h.inj hxs (isSome_body?_of_mem_steps hd ha) heq]
      rw [List.mem_append, List.mem_append, hplaced a ha, hmem, hfirst, List.mem_filter]

/-! ## The phases -/

variable [Std.TransCmp (Isometric.readingOrder (α := α))]

/-- A diagram with the same shapes at the same places, and with its steps in the order of execution,
has the same phases in the same order. -/
theorem compute (h : Isomorphism d e f g) (hd : d.Sound []) (he : e.Sound [])
    (hcabled : ∀ id ∈ d.steps, Cabled d id) (hcabled' : ∀ id ∈ e.steps, Cabled e id)
    (hcentre : ∀ id ∈ d.steps, e.centre? (f id) = d.centre? id) {p : Phases}
    (hp : Phases.compute d = .ok p) (hsteps : e.steps = p.flatten.map f) :
    Phases.compute e = .ok ⟨p.layers.map (List.map f)⟩ := by
  obtain ⟨layers, hformed, rfl⟩ := formed_of_compute hp
  have hrenamed : Formed e [] _ _ :=
    h.formed hd he hcabled hcabled' (sortLayer_perm d) hformed (fun _ hid => hid) (by simp)
  rw [Phases.compute, form_of_formed (hsteps ▸ hrenamed) (Nat.le_succ _)]
  refine congrArg (fun ls => Except.ok (Phases.mk ls)) ?_
  rw [layers_sortShared, ← List.map_id ((layers.map (sortLayer d)).map (List.map f)), List.map_map]
  refine List.map_congr_left fun layer hlayer => ?_
  obtain ⟨sorted, hsorted, rfl⟩ := List.mem_map.1 hlayer
  obtain ⟨layer, hmem, rfl⟩ := List.mem_map.1 hsorted
  have hstep := fun id hid => (hformed.sublist layer hmem).mem (a := id) hid
  exact sortLayer_map (fun id hid => hcentre id (hstep id hid))
    fun id hid => isSome_shape?_of_mem_steps hd (hstep id hid)

end Diagram.Isomorphism

end Patchbay
