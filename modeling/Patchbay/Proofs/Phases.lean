import Patchbay.Double
import Patchbay.Phases
import Patchbay.Proofs.Diagram.Chains
import Patchbay.Proofs.Sorting

/-!
# The order of execution

Each round of forming phases takes the steps whose input magnets all have cables and whose feeding
steps are placed. In a reachable diagram a step is therefore taken in the round that is its depth:
not earlier, because the steps before it in its longest chain are taken one a round, and not later,
because all that feeds it is placed by then. This is shown for the rounds from any point on
(`Formed.depth`), since a round depends on what was placed before it.
-/

namespace Patchbay

namespace Phases

open Diagram Relation

variable {α : Type} {d : Diagram α} {id : ShapeId}

/-! ## Readiness -/

theorem some_mem_feeders_iff (h : d.Wired) {a : ShapeId} :
    some a ∈ d.feeders id ↔ d.Feeds a id := by
  unfold feeders
  constructor
  · intro ha
    cases hs : d.shape? id with
    | none => simp [hs] at ha
    | some s =>
      simp only [hs, List.mem_map, Option.map_eq_some_iff] at ha
      obtain ⟨m, hm, k, hk, rfl⟩ := ha
      obtain ⟨i, hi⟩ := List.mem_iff_getElem?.1 hm
      have hmag : d.magnet? ⟨id, .input, i⟩ = some m := (magnet?_of_shape? hs).trans hi
      obtain ⟨c, hc, hck⟩ := List.mem_filterMap.1 (List.mem_of_head? hk)
      obtain ⟨s', hends⟩ := h.landed hmag rfl hc
      rw [ends?_eq_some hck] at hends
      obtain ⟨-, hdest⟩ := Prod.mk.inj (Option.some.inj hends)
      exact ⟨c, k.source, _, by rw [ends?_eq_some hck, hdest], rfl, rfl⟩
  · rintro ⟨c, s, t, hc, rfl, rfl⟩
    obtain ⟨m, hm, hmem⟩ := h.dest hc
    obtain ⟨k, hk, rfl, -⟩ := exists_cable_of_ends? hc
    have hside := h.dest_side hc
    have hone := h.eq_singleton hm hside hmem
    obtain ⟨sh, hsh, hi⟩ := Option.bind_eq_some_iff.1 hm
    rw [hside] at hi
    simp only [hsh, List.mem_map]
    exact ⟨m, List.mem_of_getElem? hi, by simp [hone, hk]⟩

def Cabled (d : Diagram α) (id : ShapeId) : Prop :=
  ∀ i m, d.magnet? ⟨id, .input, i⟩ = some m → m.cables ≠ []

theorem none_mem_feeders_iff (h : d.Wired) : .none ∈ d.feeders id ↔ ¬ Cabled d id := by
  unfold feeders Cabled
  cases hs : d.shape? id with
  | none => simp [magnet?_eq, hs]
  | some s =>
    have hmag : ∀ i, d.magnet? ⟨id, .input, i⟩ = s.inputs[i]? := fun i => magnet?_of_shape? hs
    have hlive : ∀ (i : Nat) (m : Magnet α), s.inputs[i]? = some m →
        (m.cables.filterMap d.cable? = [] ↔ m.cables = []) := by
      intro i m hi
      constructor
      · intro hnil
        refine List.eq_nil_iff_forall_not_mem.2 fun c hc => ?_
        obtain ⟨s', hends⟩ := h.landed ((hmag i).trans hi) rfl hc
        obtain ⟨k, hk, -⟩ := exists_cable_of_ends? hends
        have hmem : k ∈ m.cables.filterMap d.cable? := List.mem_filterMap.2 ⟨c, hc, hk⟩
        simp [hnil] at hmem
      · intro hnil
        simp [hnil]
    simp only [hmag, List.mem_map, Option.map_eq_none_iff, List.head?_eq_none_iff, not_forall]
    constructor
    · rintro ⟨m, hm, hnil⟩
      obtain ⟨i, hi⟩ := List.mem_iff_getElem?.1 hm
      exact ⟨i, m, hi, fun hne => hne ((hlive i m hi).1 hnil)⟩
    · rintro ⟨i, m, hi, hne⟩
      exact ⟨m, List.mem_of_getElem? hi, (hlive i m hi).2 (not_not.1 hne)⟩

/-- A step is ready once all its inputs have cables and the steps that feed it are placed. -/
theorem isReady_iff (h : d.Wired) (hl : d.ShapesListed []) {placed : List ShapeId}
    (hid : id ∈ d.steps) :
    isReady d placed id = true ↔ Cabled d id ∧ ∀ a, d.StepFeeds a id → a ∈ placed := by
  have hsource : ∀ a, (!(d.shape? a).any (·.isStep) || decide (a ∈ placed)) = true ↔
      (a ∈ d.steps → a ∈ placed) := by
    intro a
    rw [hl.mem_steps, has]
    by_cases hstep : (d.shape? a).any (·.isStep) <;> simp [hstep]
  unfold isReady
  rw [List.all_eq_true]
  constructor
  · intro hall
    refine ⟨?_, fun a ha => ?_⟩
    · by_contra hnot
      have := hall _ ((none_mem_feeders_iff h).2 hnot)
      simp at this
    · have := hall _ ((some_mem_feeders_iff h).2 ha.2.2)
      exact (hsource a).1 this ha.1
  · rintro ⟨hcabled, hplaced⟩ o ho
    cases o with
    | none => exact absurd hcabled ((none_mem_feeders_iff h).1 ho)
    | some a =>
      refine (hsource a).2 fun ha => hplaced a ⟨ha, hid, ?_⟩
      exact (some_mem_feeders_iff h).1 ho

/-! ## Rounds -/

/-- The phases that rounds form of the steps that remain, when some are placed already. -/
inductive Formed (d : Diagram α) : List ShapeId → List ShapeId → List (List ShapeId) → Prop
  | done (placed : List ShapeId) : Formed d placed [] []
  | round {placed remaining : List ShapeId} {layers : List (List ShapeId)} :
      remaining.filter (isReady d placed) ≠ [] →
      Formed d (placed ++ remaining.filter (isReady d placed))
        (remaining.filter fun id => !isReady d placed id) layers →
      Formed d placed remaining (remaining.filter (isReady d placed) :: layers)

theorem formed_of_form {limit rounds : Nat} {placed remaining : List ShapeId}
    {layers : List (List ShapeId)} (h : form d limit rounds placed remaining = .ok layers) :
    Formed d placed remaining layers := by
  induction rounds generalizing placed remaining layers with
  | zero =>
    cases remaining with
    | nil =>
      cases h
      exact .done placed
    | cons x xs => cases h
  | succ rounds ih =>
    cases remaining with
    | nil =>
      cases h
      exact .done placed
    | cons x xs =>
      have hnot : not ∘ isReady d placed = fun id => !isReady d placed id := rfl
      rw [form, List.partition_eq_filter_filter, hnot] at h
      dsimp only at h
      split at h
      · cases h
      · rename_i hne
        rw [List.isEmpty_iff] at hne
        cases hrest : form d limit rounds
            (placed ++ (x :: xs).filter (isReady d placed))
            ((x :: xs).filter fun id => !isReady d placed id) with
        | error e =>
          rw [hrest] at h
          cases h
        | ok rest =>
          rw [hrest] at h
          cases h
          exact .round hne (ih hrest)
      · simp

variable {placed remaining : List ShapeId} {layers : List (List ShapeId)}

theorem Formed.flatten_perm (h : Formed d placed remaining layers) :
    layers.flatten.Perm remaining := by
  induction h with
  | done => exact .refl _
  | @round placed remaining layers _ _ ih =>
    rw [List.flatten_cons]
    exact (ih.append_left _).trans (List.filter_append_perm (isReady d placed) remaining)

theorem Formed.ne_nil (h : Formed d placed remaining layers) : ∀ layer ∈ layers, layer ≠ [] := by
  induction h with
  | done => simp
  | round hne _ ih =>
    intro layer hlayer
    rcases List.mem_cons.1 hlayer with rfl | hlayer
    · exact hne
    · exact ih layer hlayer

theorem Formed.sublist (h : Formed d placed remaining layers) :
    ∀ layer ∈ layers, layer.Sublist remaining := by
  induction h with
  | done => simp
  | round _ _ ih =>
    intro layer hlayer
    rcases List.mem_cons.1 hlayer with rfl | hlayer
    · exact List.filter_sublist
    · exact (ih layer hlayer).trans List.filter_sublist

/-- Rounds that place all steps find a cable at each of their inputs. -/
theorem Formed.cabled (h : Formed d placed remaining layers) (hw : d.Wired)
    (hl : d.ShapesListed []) (hsteps : ∀ id ∈ remaining, id ∈ d.steps) :
    ∀ id ∈ remaining, Cabled d id := by
  induction h with
  | done => simp
  | @round placed remaining layers _ _ ih =>
    intro id hid
    by_cases hready : isReady d placed id
    · exact ((isReady_iff hw hl (hsteps id hid)).1 hready).1
    · refine ih (fun x hx => hsteps x (List.mem_filter.1 hx).1) id ?_
      simp [hid, hready]

/-- In the round `k` rounds from now the steps are placed whose depth is `k` more than the number of
rounds up to now, if that many rounds have placed all steps of a lesser depth. -/
theorem Formed.depth (h : Formed d placed remaining layers) (hw : d.Wired) (hl : d.ShapesListed [])
    (hsteps : ∀ id, id ∈ d.steps ↔ id ∈ placed ∨ id ∈ remaining) {rounds : Nat}
    (hplaced : ∀ id ∈ placed, ∀ n, d.ChainTo id n → n < rounds)
    (hremaining : ∀ id ∈ remaining, d.ChainTo id rounds) :
    ∀ k layer, layers[k]? = some layer → ∀ id ∈ layer, d.Depth id (rounds + k) := by
  induction h generalizing rounds with
  | done => simp
  | @round placed remaining layers hne hformed ih =>
    have hready : ∀ id ∈ remaining, (isReady d placed id = true ↔
        Cabled d id ∧ ∀ a, d.StepFeeds a id → a ∈ placed) :=
      fun id hid => isReady_iff hw hl ((hsteps id).2 (.inr hid))
    have hcabled : ∀ id ∈ remaining, Cabled d id :=
      (Formed.round hne hformed).cabled hw hl fun id hid => (hsteps id).2 (.inr hid)
    have hbound : ∀ id ∈ remaining, isReady d placed id = true →
        ∀ n, d.ChainTo id n → n ≤ rounds := by
      intro id hid hr n hn
      cases hn with
      | start => omega
      | step hfeeds hn =>
        have := hplaced _ (((hready id hid).1 hr).2 _ hfeeds) _ hn
        omega
    intro k layer hlayer id hid
    cases k with
    | zero =>
      simp only [List.getElem?_cons_zero, Option.some.injEq] at hlayer
      subst hlayer
      obtain ⟨hid, hr⟩ := List.mem_filter.1 hid
      exact ⟨hremaining id hid, hbound id hid hr⟩
    | succ k =>
      rw [List.getElem?_cons_succ] at hlayer
      have hgoal : d.Depth id (rounds + 1 + k) := ih ?_ ?_ ?_ k layer hlayer id hid
      · rwa [Nat.add_right_comm] at hgoal
      · intro x
        rw [hsteps x]
        by_cases hr : isReady d placed x <;> simp [hr]
      · intro x hx n hn
        rcases List.mem_append.1 hx with hx | hx
        · have := hplaced x hx n hn
          omega
        · obtain ⟨hx, hr⟩ := List.mem_filter.1 hx
          have := hbound x hx hr n hn
          omega
      · intro x hx
        obtain ⟨hx, hr⟩ := List.mem_filter.1 hx
        -- Not all that feeds the step is placed, and what is not placed ends a chain already.
        have hnot : ¬ ∀ a, d.StepFeeds a x → a ∈ placed := by
          intro hall
          rw [(hready x hx).2 ⟨hcabled x hx, hall⟩] at hr
          cases hr
        obtain ⟨a, hnot⟩ := not_forall.1 hnot
        obtain ⟨ha, hna⟩ := Classical.not_imp.1 hnot
        exact .step ha (hremaining a (((hsteps a).1 ha.1).resolve_left hna))

/-! ## Phases by depth -/

/-- The phases hold all steps, each in the phase that is its depth. -/
structure ByDepth (d : Diagram α) (p : Phases) : Prop where
  perm : p.flatten.Perm d.steps
  depth : ∀ n layer, p.layers[n]? = some layer → ∀ id ∈ layer, d.Depth id n

/-- The phases hold all steps by their depth, and no phase is empty. -/
structure Layered (d : Diagram α) (p : Phases) : Prop extends ByDepth d p where
  ne_nil : ∀ layer ∈ p.layers, layer ≠ []

variable {p : Phases}

theorem ByDepth.phaseOf?_eq_some_iff (h : ByDepth d p) {n : Nat} :
    p.phaseOf? id = some n ↔ id ∈ d.steps ∧ d.Depth id n := by
  have hphase : ∀ {k}, p.phaseOf? id = some k → id ∈ d.steps ∧ d.Depth id k := by
    intro k hk
    obtain ⟨hlt, hmem, -⟩ := List.findIdx?_eq_some_iff_getElem.1 hk
    have hmem : id ∈ p.layers[k] := by simpa using hmem
    refine ⟨h.perm.mem_iff.1 ?_, h.depth k _ (List.getElem?_eq_getElem hlt) id hmem⟩
    exact List.mem_flatten.2 ⟨_, List.getElem_mem hlt, hmem⟩
  refine ⟨hphase, fun ⟨hid, hn⟩ => ?_⟩
  obtain ⟨layer, hlayer, hmem⟩ := List.mem_flatten.1 (h.perm.mem_iff.2 hid)
  cases hk : p.phaseOf? id with
  | none =>
    have := List.findIdx?_eq_none_iff.1 hk layer hlayer
    simp [hmem] at this
  | some k => rw [(hphase hk).2.unique hn]

theorem ByDepth.exists_depth (h : ByDepth d p) (hid : id ∈ d.steps) :
    ∃ n, p.phaseOf? id = some n ∧ d.Depth id n := by
  obtain ⟨layer, hlayer, hmem⟩ := List.mem_flatten.1 (h.perm.mem_iff.2 hid)
  obtain ⟨n, hn⟩ := List.mem_iff_getElem?.1 hlayer
  have hdepth := h.depth n layer hn id hmem
  exact ⟨n, h.phaseOf?_eq_some_iff.2 ⟨hid, hdepth⟩, hdepth⟩

theorem ByDepth.first (h : ByDepth d p) (hid : id ∈ d.steps) :
    p.phaseOf? id = some 0 ↔ ∀ a, ¬ d.StepFeeds a id := by
  obtain ⟨n, hn, hdepth⟩ := h.exists_depth hid
  rw [← hdepth.zero_iff, hn, Option.some.injEq]

theorem ByDepth.next (h : ByDepth d p) (hid : id ∈ d.steps) (n : Nat) :
    p.phaseOf? id = some (n + 1) ↔
      IsGreatest {k | ∃ a, d.StepFeeds a id ∧ p.phaseOf? a = some k} n := by
  obtain ⟨m, hm, hdepth⟩ := h.exists_depth hid
  have hall : ∀ a, d.StepFeeds a id → ∃ k, d.Depth a k := by
    intro a ha
    obtain ⟨k, -, hk⟩ := h.exists_depth ha.1
    exact ⟨k, hk⟩
  have hset : {k | ∃ a, d.StepFeeds a id ∧ p.phaseOf? a = some k} =
      {k | ∃ a, d.StepFeeds a id ∧ d.Depth a k} := by
    ext k
    constructor
    · rintro ⟨a, ha, hk⟩
      exact ⟨a, ha, (h.phaseOf?_eq_some_iff.1 hk).2⟩
    · rintro ⟨a, ha, hk⟩
      exact ⟨a, ha, h.phaseOf?_eq_some_iff.2 ⟨ha.1, hk⟩⟩
  rw [hset, ← hdepth.succ_iff hall, hm, Option.some.injEq]

theorem pair_sublist_flatten {β : Type} {ls : List (List β)} {i j : Nat} {l l' : List β} {a b : β}
    (hi : ls[i]? = some l) (hj : ls[j]? = some l') (hij : i < j) (ha : a ∈ l) (hb : b ∈ l') :
    [a, b].Sublist ls.flatten := by
  induction ls generalizing i j with
  | nil => simp at hi
  | cons x xs ih =>
    obtain ⟨j, rfl⟩ : ∃ k, j = k + 1 := ⟨j - 1, by omega⟩
    rw [List.getElem?_cons_succ] at hj
    rw [List.flatten_cons]
    cases i with
    | zero =>
      simp only [List.getElem?_cons_zero, Option.some.injEq] at hi
      subst hi
      have hmem : b ∈ xs.flatten := List.mem_flatten.2 ⟨l', List.mem_of_getElem? hj, hb⟩
      exact (List.singleton_sublist.2 ha).append (List.singleton_sublist.2 hmem)
    | succ i =>
      rw [List.getElem?_cons_succ] at hi
      exact (ih hi hj (by omega)).trans (List.sublist_append_right x _)

/-- What is upstream comes first. -/
theorem ByDepth.pair_sublist (h : ByDepth d p) {a b : ShapeId} (ha : a ∈ d.steps) (hb : b ∈ d.steps)
    (hab : TransGen d.StepFeeds a b) : [a, b].Sublist p.flatten := by
  have hlayer : ∀ {x}, x ∈ d.steps → ∃ (n : Nat) (layer : List ShapeId),
      p.layers[n]? = some layer ∧ x ∈ layer := by
    intro x hx
    obtain ⟨layer, hlayer, hmem⟩ := List.mem_flatten.1 (h.perm.mem_iff.2 hx)
    obtain ⟨n, hn⟩ := List.mem_iff_getElem?.1 hlayer
    exact ⟨n, layer, hn, hmem⟩
  have hall : ∀ x ∈ d.steps, ∃ k, d.Depth x k := by
    intro x hx
    obtain ⟨n, -, hn⟩ := h.exists_depth hx
    exact ⟨n, hn⟩
  obtain ⟨m, la, hla, hma⟩ := hlayer ha
  obtain ⟨n, lb, hlb, hmb⟩ := hlayer hb
  have hlt := Depth.lt_of_transGen hall hab (h.depth m la hla a hma) (h.depth n lb hlb b hmb)
  exact pair_sublist_flatten hla hlb hlt hma hmb

/-! ## Reading order -/

variable [Scalar α]

def inReading (d : Diagram α) (ids : List ShapeId) : List ShapeId :=
  stableSort (compareReading d) ids

def sortLayer (d : Diagram α) (layer : List ShapeId) : List ShapeId :=
  if 1 < layer.length then stableSort (compareReading d) layer else layer

theorem layers_sortShared (d : Diagram α) (p : Phases) :
    (sortShared d p).layers = p.layers.map (sortLayer d) := rfl

theorem sortLayer_perm (d : Diagram α) (layer : List ShapeId) :
    (sortLayer d layer).Perm layer := by
  unfold sortLayer
  split
  · exact stableSort_perm _ _
  · exact .refl _

theorem flatten_map_perm {β : Type} {f : List β → List β} (hf : ∀ l, (f l).Perm l)
    (ls : List (List β)) : (ls.map f).flatten.Perm ls.flatten := by
  induction ls with
  | nil => exact .refl _
  | cons l ls ih => exact (hf l).append ih

theorem formed_of_compute (h : compute d = .ok p) :
    ∃ layers, Formed d [] d.steps layers ∧ p = sortShared d ⟨layers⟩ := by
  unfold compute at h
  cases hform : form d (d.steps.length + 1) (d.steps.length + 1) [] d.steps with
  | error e =>
    simp [hform, Except.map] at h
  | ok layers =>
    simp only [hform, Except.map, Except.ok.injEq] at h
    exact ⟨layers, formed_of_form hform, h.symm⟩

/-- Sorting shared phases keeps each step in its phase. -/
theorem Layered.sortShared (h : Layered d p) : Layered d (sortShared d p) where
  perm := (flatten_map_perm (sortLayer_perm d) p.layers).trans h.perm
  depth n layer hlayer id hid := by
    rw [layers_sortShared, List.getElem?_map] at hlayer
    obtain ⟨l, hl, rfl⟩ := Option.map_eq_some_iff.1 hlayer
    exact h.depth n l hl id ((sortLayer_perm d l).mem_iff.1 hid)
  ne_nil layer hlayer := by
    rw [layers_sortShared] at hlayer
    obtain ⟨l, hl, rfl⟩ := List.mem_map.1 hlayer
    intro hnil
    have hperm : [].Perm l := hnil ▸ sortLayer_perm d l
    exact h.ne_nil l hl hperm.nil_eq.symm

theorem layered_of_compute (hs : d.Sound []) (h : compute d = .ok p) : Layered d p := by
  obtain ⟨layers, hformed, rfl⟩ := formed_of_compute h
  refine Layered.sortShared ⟨⟨hformed.flatten_perm, fun n layer hlayer id hid => ?_⟩,
    hformed.ne_nil⟩
  have hdepth : d.Depth id (0 + n) := hformed.depth hs.toWired hs.toShapesListed (by simp)
    (by simp) (fun x _ => .start x) n layer hlayer id hid
  rwa [Nat.zero_add] at hdepth

/-- Steps are there. -/
theorem isSome_shape?_of_mem_steps (hs : d.Sound []) (hid : id ∈ d.steps) :
    (d.shape? id).isSome := by
  rw [hs.mem_steps, has] at hid
  cases hshape : d.shape? id with
  | none => simp [hshape] at hid
  | some s => rfl

/-- Two shapes that are there are compared by their centres. -/
theorem compareReading_of_live {a b : ShapeId} {s t : Shape α} (ha : d.shape? a = some s)
    (hb : d.shape? b = some t) :
    compareReading d a b = Isometric.readingOrder s.centre t.centre := by
  simp [compareReading, ha, hb]

theorem orders_compareReading [Std.TransCmp (Isometric.readingOrder (α := α))]
    {layer : List ShapeId} (hlive : ∀ id ∈ layer, (d.shape? id).isSome) :
    Orders (compareReading d) layer := by
  have hshape : ∀ id ∈ layer, ∃ s, d.shape? id = some s :=
    fun id hid => Option.isSome_iff_exists.1 (hlive id hid)
  refine ⟨fun a ha b hb hab => ?_, fun a ha b hb c hc hab hbc => ?_⟩
  · obtain ⟨s, hs⟩ := hshape a ha
    obtain ⟨t, ht⟩ := hshape b hb
    rw [compareReading_of_live hs ht] at hab
    have hswap : Isometric.readingOrder t.centre s.centre =
        (Isometric.readingOrder s.centre t.centre).swap := Std.OrientedCmp.eq_swap
    rw [compareReading_of_live ht hs, hswap]
    intro hgt
    exact hab (Ordering.swap_eq_gt.1 hgt)
  · obtain ⟨s, hs⟩ := hshape a ha
    obtain ⟨t, ht⟩ := hshape b hb
    obtain ⟨u, hu⟩ := hshape c hc
    rw [compareReading_of_live hs ht, ne_eq, Ordering.ne_gt_iff_isLE] at hab
    rw [compareReading_of_live ht hu, ne_eq, Ordering.ne_gt_iff_isLE] at hbc
    rw [compareReading_of_live hs hu, ne_eq, Ordering.ne_gt_iff_isLE]
    exact Std.TransCmp.isLE_trans hab hbc

/-- The steps of a phase may be read in the order in which they are. -/
theorem pairwise_sortLayer [Std.TransCmp (Isometric.readingOrder (α := α))]
    {layer : List ShapeId} (hlive : ∀ id ∈ layer, (d.shape? id).isSome) :
    (sortLayer d layer).Pairwise (MayPrecede (compareReading d) layer) := by
  unfold sortLayer
  split
  · exact pairwise_stableSort (orders_compareReading hlive)
  · rename_i hlen
    match layer with
    | [] => exact .nil
    | [x] => simp
    | x :: y :: rest => simp at hlen

/-- On doubles the reading order is an order. -/
instance : Std.TransCmp (Isometric.readingOrder (α := Double)) :=
  inferInstanceAs (Std.TransCmp (compareLex
    (compareOn fun p : Point Double => (Isometric.depth p).rank)
    (compareOn fun p : Point Double => (Isometric.along p).rank)))

/-! ## The order of execution -/

/-- The phases are an order of execution: they divide the steps by the longest chain that leads to
each, and each phase is in the order in which its steps are read. -/
structure OrderOf (d : Diagram α) (p : Phases) : Prop where
  ne_nil : ∀ layer ∈ p.layers, layer ≠ []
  perm : p.flatten.Perm d.steps
  nodup : p.flatten.Nodup
  longest : ∀ id ∈ d.steps, ∃ n, p.phaseOf? id = some n ∧ IsGreatest {k | d.ChainTo id k} n
  first : ∀ id ∈ d.steps, p.phaseOf? id = some 0 ↔ ∀ a, ¬ d.StepFeeds a id
  next : ∀ id ∈ d.steps, ∀ n, p.phaseOf? id = some (n + 1) ↔
    IsGreatest {k | ∃ a, d.StepFeeds a id ∧ p.phaseOf? a = some k} n
  upstream : ∀ a ∈ d.steps, ∀ b ∈ d.steps, TransGen d.Feeds a b → [a, b].Sublist p.flatten
  reading : ∀ layer ∈ p.layers, layer.Pairwise fun a b =>
    ∃ s t, d.shape? a = some s ∧ d.shape? b = some t ∧
      (Isometric.readingOrder s.centre t.centre = .lt ∨
        Isometric.readingOrder s.centre t.centre = .eq ∧ [a, b].Sublist d.steps)

theorem orderOf_of_sound [Std.TransCmp (Isometric.readingOrder (α := α))] (hs : d.Sound [])
    (h : compute d = .ok p) : OrderOf d p := by
  have hdepth := layered_of_compute hs h
  obtain ⟨layers, hformed, rfl⟩ := formed_of_compute h
  have hlive : ∀ layer ∈ layers, ∀ id ∈ layer, (d.shape? id).isSome :=
    fun layer hlayer id hid =>
      isSome_shape?_of_mem_steps hs ((hformed.sublist layer hlayer).mem hid)
  refine { ne_nil := hdepth.ne_nil, perm := hdepth.perm, nodup := ?_,
           longest := fun id => hdepth.exists_depth, first := fun id => hdepth.first,
           next := fun id => hdepth.next, upstream := ?_, reading := ?_ }
  · exact hdepth.perm.nodup_iff.2 hs.steps_nodup
  · intro a ha b hb hab
    exact hdepth.pair_sublist ha hb (hs.transGen_stepFeeds ha hb hab)
  · intro layer hlayer
    obtain ⟨l, hl, rfl⟩ := List.mem_map.1 hlayer
    refine (pairwise_sortLayer (hlive l hl)).imp_of_mem ?_
    intro a b ha hb hab
    obtain ⟨s, hsa⟩ := Option.isSome_iff_exists.1 (hlive l hl a ((sortLayer_perm d l).mem_iff.1 ha))
    obtain ⟨t, htb⟩ := Option.isSome_iff_exists.1 (hlive l hl b ((sortLayer_perm d l).mem_iff.1 hb))
    have hab := hab.mono (hformed.sublist l hl)
    rw [MayPrecede, compareReading_of_live hsa htb] at hab
    exact ⟨s, t, hsa, htb, hab⟩

/-- Of a reachable diagram, the phases that are computed are an order of execution. -/
theorem orderOf_compute {d : Diagram Double} (h : d.Reachable) (hp : compute d = .ok p) :
    OrderOf d p :=
  orderOf_of_sound h.sound hp

/-- Two steps that feed a third one. -/
def twoIntoOne : List (Change Double) :=
  [.addShape (.step "f" [] [⟨"y", .none⟩] Point.origin),
   .addShape (.step "g" [] [⟨"y", .none⟩] Point.origin),
   .addShape (.step "h" [⟨"a", .none⟩, ⟨"b", .none⟩] [] Point.origin),
   .connect ⟨⟨0⟩, .output, 0⟩ ⟨⟨2⟩, .input, 0⟩,
   .connect ⟨⟨1⟩, .output, 0⟩ ⟨⟨2⟩, .input, 1⟩]

theorem orderOf_twoIntoOne :
    ((blank.after twoIntoOne).Reachable ∧
      compute (blank.after twoIntoOne) =
        .ok (sortShared (blank.after twoIntoOne) ⟨[[⟨0⟩, ⟨1⟩], [⟨2⟩]]⟩)) ∧
    OrderOf (blank.after twoIntoOne)
      (sortShared (blank.after twoIntoOne) ⟨[[⟨0⟩, ⟨1⟩], [⟨2⟩]]⟩) := by
  have hbuilt : ∀ c ∈ twoIntoOne, c.Built := by
    simp [twoIntoOne, Change.Built, Shape.Built.step]
  have hreach : (blank.after twoIntoOne).Reachable := ⟨_, hbuilt, rfl⟩
  -- No cable leaves the third step, so both cables may be laid.
  have hafter : blank.after twoIntoOne = ((blank.after (twoIntoOne.take 3)).join
      ⟨⟨0⟩, .output, 0⟩ ⟨⟨2⟩, .input, 0⟩).join ⟨⟨1⟩, .output, 0⟩ ⟨⟨2⟩, .input, 1⟩ := by
    rw [← run_connect_of_successors_eq_nil rfl rfl rfl rfl rfl rfl (by decide) rfl,
      ← run_connect_of_successors_eq_nil rfl rfl rfl rfl rfl rfl (by decide) rfl]
    rfl
  have hcompute : compute (blank.after twoIntoOne) =
      .ok (sortShared (blank.after twoIntoOne) ⟨[[⟨0⟩, ⟨1⟩], [⟨2⟩]]⟩) := by
    rw [hafter]
    rfl
  exact ⟨⟨hreach, hcompute⟩, orderOf_compute hreach hcompute⟩

end Phases

end Patchbay
