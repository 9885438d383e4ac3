import Patchbay.Proofs.Description.Matching

/-!
# Consistent descriptions

What a description must satisfy so that a diagram can be built from it, said of the description
alone: each reference denotes exactly one thing, what a cable gives fits where it lands, no two
cables of a step land on one socket, and the steps do not supply each other in a circle
(`Consistent`). If the steps have different numbers, building succeeds just then, and neither success
nor the outcome depends on the order of the lists (`build_iff_consistent`), although building sees
one cable at a time.
-/

namespace Patchbay

namespace Description

open Diagram Relation Running
open List (Forall₂)

variable {α : Type} {p q : Description α} {number : Nat} {name : String} {s t : Terminal}
  {type : Option Datatype}

/-! ## What a description must satisfy -/

/-- The reference denotes exactly one thing, which gives data of the type: the input with the name
if the number is zero, else the output socket with the name, of the step with the number. -/
inductive Offers (p : Description α) : Nat → String → Option Datatype → Prop
  | input {name : String} {i : Input α} :
      p.inputs.filter (fun j => decide (j.name = name)) = [i] → Offers p 0 name i.datatype
  | socket {number : Nat} {name : String} {q : Step α} {x : Socket} : number ≠ 0 →
      p.steps.filter (fun r => decide (r.number = number)) = [q] →
      q.outputs.filter (fun y => decide (y.name = name)) = [x] → Offers p number name x.datatype

/-- A cable leads from the step with the one number to the step with the other. -/
def Supplies (p : Description α) (m n : Nat) : Prop :=
  m ≠ 0 ∧ ∃ q ∈ p.steps, q.number = n ∧ ∃ k ∈ q.cables, k.sourceStep = m

/-- References denote exactly one thing each, what cables give fits where they land, no two cables
of a step land on one socket, and no step supplies itself over others. -/
structure Consistent (p : Description α) : Prop where
  cable : ∀ q ∈ p.steps, ∀ k ∈ q.cables, ∃ type x, p.Offers k.sourceStep k.sourceName type ∧
    q.inputs.filter (fun y => decide (y.name = k.destName)) = [x] ∧ Fits type x.datatype
  output : ∀ o ∈ p.outputs, ∃ type, p.Offers o.sourceStep o.sourceName type ∧
    Fits type o.datatype
  apart : ∀ q ∈ p.steps, (q.cables.map CableIn.destName).Nodup
  acyclic : ∀ n, ¬ TransGen p.Supplies n n

/-- The description lists the same inputs, steps and outputs in another order. -/
structure Reorders (p q : Description α) : Prop where
  inputs : q.inputs.Perm p.inputs
  steps : q.steps.Perm p.steps
  outputs : q.outputs.Perm p.outputs

theorem Reorders.symm (h : p.Reorders q) : q.Reorders p :=
  ⟨h.inputs.symm, h.steps.symm, h.outputs.symm⟩

theorem Key.Lists.of_reorders {v : Key α} (h : v.Lists q) (hr : p.Reorders q) : v.Lists p where
  inputs := h.inputs.trans hr.inputs
  steps := h.steps.trans hr.steps
  cables := h.cables.trans (cables_perm hr.steps)
  outputs := h.outputs.trans hr.outputs

theorem Offers.reorder (hr : p.Reorders q) (h : p.Offers number name type) :
    q.Offers number name type := by
  cases h with
  | input hi => exact .input ((filter_eq_singleton_of_perm hr.inputs).2 hi)
  | socket hne hq hx => exact .socket hne ((filter_eq_singleton_of_perm hr.steps).2 hq) hx

theorem Consistent.reorder (h : p.Consistent) (hr : p.Reorders q) : q.Consistent where
  cable r hr' k hk := by
    obtain ⟨type, x, hoffers, hrest⟩ := h.cable r (hr.steps.mem_iff.1 hr') k hk
    exact ⟨type, x, hoffers.reorder hr, hrest⟩
  output o ho := by
    obtain ⟨type, hoffers, hfits⟩ := h.output o (hr.outputs.mem_iff.1 ho)
    exact ⟨type, hoffers.reorder hr, hfits⟩
  apart r hr' := h.apart r (hr.steps.mem_iff.1 hr')
  acyclic n hn := h.acyclic n (TransGen.mono (fun _ _ ⟨hne, r, hr', hedge⟩ =>
    ⟨hne, r, hr.steps.mem_iff.1 hr', hedge⟩) _ _ hn)

/-! ## What the key finds -/

theorem exists_mounts_of_filter {sockets : List Socket} {x : Socket}
    (h : sockets.filter (fun y => decide (y.name = name)) = [x]) :
    ∃ i, Mounts sockets name x i := by
  have hmem : x ∈ sockets := (List.mem_filter.1 (h ▸ List.mem_singleton_self x)).1
  obtain ⟨i, hi⟩ := List.mem_iff_getElem?.1 ((sortOn_perm Socket.index sockets).mem_iff.2 hmem)
  exact ⟨i, h, hi⟩

namespace Key

variable {v : Key α}

theorem Lists.distinct (h : v.Lists p) (hn : (p.steps.map Step.number).Nodup) : v.Distinct := by
  have hperm := (h.steps.map Step.number).nodup_iff.2 hn
  rwa [List.map_map] at hperm

theorem Lists.exists_of_mem_steps (h : v.Lists p) {q : Step α} (hq : q ∈ p.steps) :
    ∃ id, (q, id) ∈ v.steps := by
  obtain ⟨⟨q, id⟩, he, rfl⟩ := List.mem_map.1 (h.steps.mem_iff.2 hq)
  exact ⟨id, he⟩

theorem Lists.mem_steps (h : v.Lists p) {q : Step α} {id : ShapeId} (hq : (q, id) ∈ v.steps) :
    q ∈ p.steps :=
  h.steps.mem_iff.1 (List.mem_map_of_mem hq)

/-- An input is found in the key just when one input of the description has the name. -/
theorem Lists.filter_inputs_iff (h : v.Lists p) {i : Input α} :
    p.inputs.filter (fun j => decide (j.name = name)) = [i] ↔
      ∃ id, v.inputs.filter (fun e => decide (e.1.name = name)) = [(i, id)] := by
  have hmap : (v.inputs.filter fun e => decide (e.1.name = name)).map Prod.fst =
      (v.inputs.map Prod.fst).filter fun j => decide (j.name = name) := by
    rw [List.filter_map]
    rfl
  rw [← filter_eq_singleton_of_perm h.inputs, ← hmap]
  constructor
  · intro hi
    obtain ⟨⟨i, id⟩, he, rfl⟩ := List.map_eq_singleton_iff.1 hi
    exact ⟨id, he⟩
  · rintro ⟨id, hid⟩
    rw [hid, List.map_singleton]

/-- What the key finds as a source is what the reference denotes. -/
theorem Lists.offers_iff (h : v.Lists p) (hn : (p.steps.map Step.number).Nodup) :
    p.Offers number name type ↔ ∃ s, v.Source number name s type := by
  have hdistinct := h.distinct hn
  have honly : ∀ {n : Nat} {q : Step α}, p.steps.filter (fun r => decide (r.number = n)) = [q] ↔
      q ∈ p.steps ∧ q.number = n := by
    intro n q
    rw [filter_eq_singleton_iff hn.of_map, decide_eq_true_eq]
    refine ⟨And.left, fun hq => ⟨hq, fun r hr hnumber => ?_⟩⟩
    exact List.inj_on_of_nodup_map hn hr hq.1 ((of_decide_eq_true hnumber).trans hq.2.symm)
  constructor
  · rintro (hi | ⟨hne, hq, hx⟩)
    · obtain ⟨id, hid⟩ := h.filter_inputs_iff.1 hi
      exact ⟨_, .input hid⟩
    · obtain ⟨hq, hnumber⟩ := honly.1 hq
      obtain ⟨id, hid⟩ := h.exists_of_mem_steps hq
      obtain ⟨i, hi⟩ := exists_mounts_of_filter hx
      exact ⟨_, .step hne (.mk (hdistinct.first?_eq_some_iff.2 ⟨hid, hnumber⟩) hi)⟩
  · rintro ⟨s, hi | ⟨hne, ⟨hq, hx⟩⟩⟩
    · exact .input (h.filter_inputs_iff.2 ⟨_, hi⟩)
    · obtain ⟨hq, hnumber⟩ := hdistinct.first?_eq_some_iff.1 hq
      exact .socket hne (honly.2 ⟨h.mem_steps hq, hnumber⟩) hx.only

/-- What the key finds on a step is on that step. -/
theorem Lists.plug_iff (h : v.Lists p) (hn : (p.steps.map Step.number).Nodup) {q : Step α}
    (hq : q ∈ p.steps) {side : Side} : (∃ t, v.Plug q.number side name t type) ↔
      ∃ x, (q.sockets side).filter (fun y => decide (y.name = name)) = [x] ∧ type = x.datatype := by
  have hdistinct := h.distinct hn
  constructor
  · rintro ⟨t, ⟨hfirst, hx⟩⟩
    obtain ⟨hmem, hnumber⟩ := hdistinct.first?_eq_some_iff.1 hfirst
    cases List.inj_on_of_nodup_map hn (h.mem_steps hmem) hq hnumber
    exact ⟨_, hx.only, rfl⟩
  · rintro ⟨x, hx, rfl⟩
    obtain ⟨id, hid⟩ := h.exists_of_mem_steps hq
    obtain ⟨i, hi⟩ := exists_mounts_of_filter hx
    exact ⟨_, .mk (hdistinct.first?_eq_some_iff.2 ⟨hid, rfl⟩) hi⟩

/-! ## One shape for each entry -/

/-- Different entries have different shapes. -/
theorem eq_of_mem_steps (hv : v.shapes.Nodup) {e e' : Step α × ShapeId} (he : e ∈ v.steps)
    (he' : e' ∈ v.steps) (heq : e.2 = e'.2) : e = e' := by
  have hsteps := (List.nodup_append'.1 (List.nodup_append'.1 hv).1).2.1
  exact List.inj_on_of_nodup_map hsteps he he' heq

theorem not_input_of_step (hv : v.shapes.Nodup) {i : Input α} {q : Step α} {id : ShapeId}
    (hi : (i, id) ∈ v.inputs) : (q, id) ∉ v.steps := fun hq =>
  (List.nodup_append'.1 (List.nodup_append'.1 hv).1).2.2
    (List.mem_map.2 ⟨_, hi, rfl⟩) (List.mem_map.2 ⟨_, hq, rfl⟩)

theorem Numbered.inj (hv : v.shapes.Nodup) {m n : Nat} {id : ShapeId} (hm : v.Numbered m id)
    (hn : v.Numbered n id) : m = n := by
  obtain ⟨e, he, rfl⟩ := Option.map_eq_some_iff.1 hm
  obtain ⟨e', he', heq⟩ := Option.map_eq_some_iff.1 hn
  obtain ⟨hmem, rfl⟩ := mem_of_first?_eq_some he
  obtain ⟨hmem', rfl⟩ := mem_of_first?_eq_some he'
  rw [eq_of_mem_steps hv hmem' hmem heq]

/-- The name of a socket is known from its magnet. -/
theorem Plug.inj (hv : v.shapes.Nodup) {m n : Nat} {side side' : Side} {name name' : String}
    {type type' : Option Datatype} (h : v.Plug m side name t type)
    (h' : v.Plug n side' name' t type') : (m, name) = (n, name') := by
  have hnumber := h.numbered.inj hv h'.numbered
  subst hnumber
  obtain ⟨hq, hx⟩ := h
  obtain ⟨hq', hx'⟩ := h'
  cases hq.symm.trans hq'
  have hname := List.of_mem_filter (hx.only ▸ List.mem_singleton_self _)
  have hname' := List.of_mem_filter (hx'.only ▸ List.mem_singleton_self _)
  cases hx.place.symm.trans hx'.place
  rw [← of_decide_eq_true hname, ← of_decide_eq_true hname']

end Key

/-! ## Cables that may be laid -/

theorem mem_cablesOf {steps : List (Step α)} {x : Step α × CableIn} :
    x ∈ cablesOf steps ↔ x.1 ∈ steps ∧ x.2 ∈ x.1.cables := by
  obtain ⟨q, k⟩ := x
  simp only [cablesOf, List.mem_flatMap, List.mem_map, Prod.mk.injEq]
  constructor
  · rintro ⟨q, hq, k, hk, rfl, rfl⟩
    exact ⟨hq, hk⟩
  · rintro ⟨hq, hk⟩
    exact ⟨q, hq, k, hk, rfl, rfl⟩

/-- What tells the sockets apart where cables land: the number of the step and the name. -/
def target (x : Step α × CableIn) : Nat × String := (x.1.number, x.2.destName)

theorem nodup_map_target_iff {steps : List (Step α)} (hn : (steps.map Step.number).Nodup) :
    ((cablesOf steps).map target).Nodup ↔ ∀ q ∈ steps, (q.cables.map CableIn.destName).Nodup := by
  have hstep : ∀ q : Step α, (q.cables.map fun k => (q, k)).map target =
      (q.cables.map CableIn.destName).map (Prod.mk q.number) := fun q => by
    rw [List.map_map, List.map_map]
    rfl
  rw [cablesOf, List.map_flatMap, List.nodup_flatMap]
  simp only [hstep, List.nodup_map_iff (Prod.mk_right_injective _)]
  refine and_iff_left_of_imp fun _ => (List.pairwise_map.1 hn).imp fun {q r} hne => ?_
  intro y hy hy'
  obtain ⟨_, _, rfl⟩ := List.mem_map.1 hy
  obtain ⟨_, _, heq⟩ := List.mem_map.1 hy'
  exact hne (congrArg Prod.fst heq).symm

section Loops

variable {v : Key α} {steps : List (Step α)} {ends : List (Terminal × Terminal)}

/-- A cable that is described runs between shapes of the numbers in it. -/
theorem exists_leads_of_supplies (hsteps : steps.Perm p.steps)
    (hends : Forall₂ v.Joins (cablesOf steps) ends) {m n : Nat} (h : p.Supplies m n) :
    ∃ a b, v.Numbered m a ∧ v.Numbered n b ∧ Leads ends a b := by
  obtain ⟨hne, q, hq, rfl, k, hk, rfl⟩ := h
  obtain ⟨i, hi⟩ := List.mem_iff_getElem?.1
    ((mem_cablesOf (x := (q, k))).2 ⟨hsteps.mem_iff.2 hq, hk⟩)
  obtain ⟨w, hw, type, expected, hs, ht, -⟩ := getElem?_of_forall₂ hends hi
  exact ⟨_, _, hs.numbered hne, ht.numbered, w, List.mem_of_getElem? hw, rfl, rfl⟩

/-- A cable that leaves a step is one that is described. -/
theorem exists_supplies_of_leads (hv : v.shapes.Nodup) (hsteps : steps.Perm p.steps)
    (hends : Forall₂ v.Joins (cablesOf steps) ends) {a b : ShapeId} (h : Leads ends a b) :
    ∃ n, v.Numbered n b ∧ ∀ m, v.Numbered m a → p.Supplies m n := by
  obtain ⟨w, hw, rfl, rfl⟩ := h
  obtain ⟨i, ⟨q, k⟩, hx, -, type, expected, hs, ht, -⟩ := exists_of_mem_right hends hw
  obtain ⟨hq, hk⟩ := mem_cablesOf.1 (List.mem_of_getElem? hx)
  refine ⟨q.number, ht.numbered, fun m hm => ?_⟩
  have hne : k.sourceStep ≠ 0 := by
    intro hzero
    rw [show ((q, k) : Step α × CableIn).2.sourceStep = 0 from hzero] at hs
    obtain ⟨i, id, hi, hid, -⟩ := Key.source_zero_iff.1 hs
    obtain ⟨⟨r, id'⟩, hr, hid'⟩ := Option.map_eq_some_iff.1 hm
    rw [hid] at hid'
    cases hid'
    exact Key.not_input_of_step hv (List.mem_of_mem_filter (hi ▸ List.mem_singleton_self _))
      (Key.mem_of_first?_eq_some hr).1
  rw [hm.inj hv (hs.numbered hne)]
  exact ⟨hne, q, hsteps.mem_iff.1 hq, rfl, k, hk, rfl⟩

/-- Cables close a loop just when steps supply each other in a circle. -/
theorem acyclic_leads_iff (hv : v.shapes.Nodup) (hsteps : steps.Perm p.steps)
    (hends : Forall₂ v.Joins (cablesOf steps) ends) :
    (∀ a, ¬ TransGen (Leads ends) a a) ↔ ∀ n, ¬ TransGen p.Supplies n n := by
  constructor
  · intro hacyclic n hn
    -- follow the circle from shape to shape
    refine hacyclic _ (hn.lift (fun m => ((v.first? m).map Prod.snd).getD default) ?_)
    intro m n hmn
    obtain ⟨a, b, ha, hb, hab⟩ := exists_leads_of_supplies hsteps hends hmn
    have hget : ∀ {l c}, v.Numbered l c → ((v.first? l).map Prod.snd).getD default = c :=
      fun hl => congrArg (·.getD default) hl
    change Leads ends _ _
    simpa only [hget ha, hget hb] using hab
  · intro hacyclic a ha
    have hpath : ∀ b, TransGen (Leads ends) a b → ∀ m, v.Numbered m a →
        ∃ n, v.Numbered n b ∧ TransGen p.Supplies m n := by
      intro b hb m hm
      induction hb with
      | single hab =>
        obtain ⟨n, hn, hmn⟩ := exists_supplies_of_leads hv hsteps hends hab
        exact ⟨n, hn, .single (hmn m hm)⟩
      | tail _ hbc ih =>
        obtain ⟨l, hl, hml⟩ := ih
        obtain ⟨n, hn, hln⟩ := exists_supplies_of_leads hv hsteps hends hbc
        exact ⟨n, hn, hml.tail (hln l hl)⟩
    -- a circle comes back to a step, so it leads from one
    obtain ⟨b, -, hba⟩ := TransGen.tail'_iff.1 ha
    obtain ⟨m, hm, -⟩ := exists_supplies_of_leads hv hsteps hends hba
    obtain ⟨n, hn, hmn⟩ := hpath a ha m hm
    rw [hm.inj hv hn] at hmn
    exact hacyclic n hmn

end Loops

/-! ## When building succeeds -/

theorem nodup_numbers_sorted (hn : (p.steps.map Step.number).Nodup) :
    ((sortOn Step.number p.steps).map Step.number).Nodup :=
  ((sortOn_perm Step.number p.steps).map _).nodup_iff.2 hn

variable [Scalar α] {settings : Settings α} {d : Diagram α}

/-- What can be built is consistent. -/
theorem consistent_of_build (hn : (p.steps.map Step.number).Nodup)
    (h : p.build settings = .ok d) : p.Consistent := by
  obtain ⟨ends, sources, hmade, hlayable⟩ := exists_made_of_build h
  have hlists := lists_key p
  have hsorted := sortOn_perm Step.number p.steps
  constructor
  case cable =>
    intro q hq k hk
    obtain ⟨i, hi⟩ := List.mem_iff_getElem?.1
      ((mem_cablesOf (x := (q, k))).2 ⟨hsorted.mem_iff.2 hq, hk⟩)
    obtain ⟨w, -, type, expected, hs, ht, hfits⟩ := getElem?_of_forall₂ hmade.joins hi
    obtain ⟨x, hx, rfl⟩ := (hlists.plug_iff hn hq).1 ⟨_, ht⟩
    exact ⟨type, x, (hlists.offers_iff hn).2 ⟨_, hs⟩, hx, hfits⟩
  case output =>
    intro o ho
    obtain ⟨i, hi⟩ := List.mem_iff_getElem?.1 ((sortOn_perm Output.index p.outputs).mem_iff.2 ho)
    obtain ⟨s, -, type, hs, hfits⟩ := getElem?_of_forall₂ hmade.yields hi
    exact ⟨type, (hlists.offers_iff hn).2 ⟨s, hs⟩, hfits⟩
  case apart =>
    intro q hq
    refine (nodup_map_target_iff (nodup_numbers_sorted hn)).1 ?_ q (hsorted.mem_iff.2 hq)
    refine nodup_map_of_forall₂ hmade.joins.flip (f := Prod.snd) ?_ hlayable.apart
    rintro w w' x x' ⟨-, expected, -, ht, -⟩ ⟨-, expected', -, ht', -⟩ htarget
    obtain ⟨hnumber, hname⟩ := Prod.mk.inj htarget
    rw [← hnumber, ← hname] at ht'
    exact ht.unique ht'
  case acyclic =>
    exact (acyclic_leads_iff (nodup_shapes_key p) hsorted hmade.joins).1 hlayable.acyclic

/-- What is consistent can be built. -/
theorem exists_build_of_consistent (hn : (p.steps.map Step.number).Nodup) (hc : p.Consistent)
    (settings : Settings α) : ∃ d, p.build settings = .ok d := by
  have hlists := lists_key p
  have hsorted := sortOn_perm Step.number p.steps
  have hjoins : ∀ x ∈ cablesOf (sortOn Step.number p.steps), ∃ w, p.key.Joins x w := by
    rintro ⟨q, k⟩ hx
    obtain ⟨hq, hk⟩ := mem_cablesOf.1 hx
    have hq := hsorted.mem_iff.1 hq
    obtain ⟨type, x, hoffers, hx, hfits⟩ := hc.cable q hq k hk
    obtain ⟨s, hs⟩ := (hlists.offers_iff hn).1 hoffers
    obtain ⟨t, ht⟩ : ∃ t, p.key.Plug q.number .input k.destName t x.datatype :=
      (hlists.plug_iff hn hq).2 ⟨x, hx, rfl⟩
    exact ⟨(s, t), type, _, hs, ht, hfits⟩
  obtain ⟨ends, hends⟩ := exists_forall₂ hjoins
  refine exists_build_of_layable hends ⟨?_, ?_⟩ fun o ho => ?_
  · refine nodup_map_of_forall₂ hends (f := target) ?_
      ((nodup_map_target_iff (nodup_numbers_sorted hn)).2 fun q hq => ?_)
    · rintro x x' w w' ⟨-, expected, -, ht, -⟩ ⟨-, expected', -, ht', -⟩ hsame
      rw [← hsame] at ht'
      exact ht.inj (nodup_shapes_key p) ht'
    · exact hc.apart q (hsorted.mem_iff.1 hq)
  · exact (acyclic_leads_iff (nodup_shapes_key p) hsorted hends).2 hc.acyclic
  · obtain ⟨type, hoffers, hfits⟩ := hc.output o ((sortOn_perm Output.index p.outputs).mem_iff.1 ho)
    obtain ⟨s, hs⟩ := (hlists.offers_iff hn).1 hoffers
    exact ⟨s, type, hs, hfits⟩

/-! ## What is built -/

/-- The magnets are those of the sockets, in the order of their indices. -/
def Carries (magnets : List (Magnet α)) (sockets : List Socket) : Prop :=
  ∃ xs : List Socket, xs.Perm sockets ∧ xs.Pairwise (fun x y => x.index ≤ y.index) ∧
    magnets.map Magnet.socket = xs.map fun x => ⟨x.name, x.datatype⟩

theorem pairwise_sortOn {β : Type} (key : β → Nat) (xs : List β) :
    (sortOn key xs).Pairwise fun x y => key x ≤ key y := by
  refine (pairwise_stableSort ⟨fun x _ y _ h => ?_, fun x _ y _ z _ hxy hyz => ?_⟩).imp
    fun {x y} hxy => ?_
  · exact Nat.compare_ne_gt.2 (Nat.compare_ne_lt.1 h)
  · exact Nat.compare_ne_gt.2
      (Nat.le_trans (Nat.compare_ne_gt.1 hxy) (Nat.compare_ne_gt.1 hyz))
  · rcases hxy with hlt | ⟨heq, -⟩
    · exact Nat.le_of_lt (Nat.compare_eq_lt.1 hlt)
    · exact Nat.le_of_eq (Nat.compare_eq_eq.1 heq)

theorem exists_carries {q : Step α} {id : ShapeId} (h : d.body? id = some (q.shape settings).body) :
    ∃ a, d.shape? id = some a ∧ Carries a.inputs q.inputs ∧ Carries a.outputs q.outputs := by
  obtain ⟨a, ha, hbody⟩ := Option.map_eq_some_iff.1 h
  have hside : ∀ side, Carries (a.magnets side) (q.sockets side) := fun side =>
    ⟨_, sortOn_perm Socket.index _, pairwise_sortOn Socket.index _,
      (map_socket_of_body hbody side).trans (q.sockets_shape settings side)⟩
  exact ⟨a, ha, hside .input, hside .output⟩

/-- If the steps have different numbers, building succeeds just when the description is consistent.
What is built shows the description, with the sockets of each step in the order of their indices and
its cables on the step itself. In which order inputs, steps and outputs are listed matters neither for
the success nor, but for names, for what is built. -/
theorem build_iff_consistent (hn : (p.steps.map Step.number).Nodup) (settings : Settings α) :
    ((∃ d, p.build settings = .ok d) ↔ p.Consistent) ∧
    (∀ d, p.build settings = .ok d → ∃ v : Key α, v.Depicts settings p d ∧
      ∀ q id, (q, id) ∈ v.steps → v.Numbered q.number id ∧
        ∃ a, d.shape? id = some a ∧ Carries a.inputs q.inputs ∧ Carries a.outputs q.outputs) ∧
    ∀ q, p.Reorders q →
      ((∃ d, q.build settings = .ok d) ↔ ∃ d, p.build settings = .ok d) ∧
      ∀ d d', p.build settings = .ok d → q.build settings = .ok d' → d.Isomorphic d' := by
  have hiff : ∀ {p : Description α}, (p.steps.map Step.number).Nodup →
      ((∃ d, p.build settings = .ok d) ↔ p.Consistent) := fun hn =>
    ⟨fun ⟨_, hd⟩ => consistent_of_build hn hd, fun hc => exists_build_of_consistent hn hc settings⟩
  refine ⟨hiff hn, fun d hd => ?_, fun q hr => ?_⟩
  · obtain ⟨ends, sources, hmade, -⟩ := exists_made_of_build hd
    refine ⟨p.key, hmade.depicts, fun q id hq => ⟨?_, exists_carries (hmade.stands.step hq)⟩⟩
    have hfirst := ((lists_key p).distinct hn).first?_eq_some_iff.2 ⟨hq, rfl⟩
    rw [Key.Numbered, hfirst, Option.map_some]
  · have hnq : (q.steps.map Step.number).Nodup := (hr.steps.map _).nodup_iff.2 hn
    refine ⟨?_, fun d d' hd hd' => ?_⟩
    · rw [hiff hnq, hiff hn]
      exact ⟨fun h => h.reorder hr.symm, fun h => h.reorder hr⟩
    · obtain ⟨ends, sources, hmade, -⟩ := exists_made_of_build hd
      obtain ⟨ends', sources', hmade', -⟩ := exists_made_of_build hd'
      have hsame : q.key.Depicts settings p d' :=
        { hmade'.depicts with toLists := (lists_key q).of_reorders hr }
      exact hmade.depicts.isomorphic hsame hn

/-- An input, two steps that are listed last first, and an output. The input supplies the first step,
which supplies the second one. -/
def twoSteps : Description Double where
  inputs := [⟨"a", 1, 0, 0, none⟩]
  steps :=
    [⟨"g", 2, 0, 0, [⟨"u", 1, none⟩], [⟨"v", 1, none⟩], [⟨1, "y", "u"⟩]⟩,
     ⟨"f", 1, 0, 0, [⟨"x", 1, none⟩], [⟨"y", 1, none⟩], [⟨0, "a", "x"⟩]⟩]
  outputs := [⟨"o", 1, 2, "v", 0, 0, none⟩]

/-- The input and the steps, with the cable into the first step. -/
def cabledTwoSteps : Diagram Double :=
  (blank.addShapes (shapesOf .standard twoSteps.inputs twoSteps.steps.reverse)).join
    ⟨⟨0⟩, .output, 0⟩ ⟨⟨1⟩, .input, 0⟩

def builtTwoSteps : Diagram Double :=
  ((cabledTwoSteps.join ⟨⟨1⟩, .output, 0⟩ ⟨⟨2⟩, .input, 0⟩).addShape
    (.output "o" none Point.origin)).join ⟨⟨2⟩, .output, 0⟩ ⟨⟨3⟩, .input, 0⟩

theorem build_twoSteps : twoSteps.build .standard = .ok builtTwoSteps := by
  have hinputs : sortOn Input.index twoSteps.inputs = twoSteps.inputs := rfl
  have hsteps : sortOn Step.number twoSteps.steps = twoSteps.steps.reverse := rfl
  have houtputs : sortOn Output.index twoSteps.outputs = twoSteps.outputs := rfl
  refine (build_eq_ok_iff hinputs hsteps houtputs).2 (run_bind_eq_ok_iff.2
    ⟨⟨⟩, cabledTwoSteps.join ⟨⟨1⟩, .output, 0⟩ ⟨⟨2⟩, .input, 0⟩,
      run_bind_eq_ok_iff.2 ⟨⟨⟩, cabledTwoSteps, ?_, ?_⟩, ?_⟩)
  · exact run_addCables_singleton rfl rfl rfl rfl
      (Edit.run_connect_of_successors_eq_nil rfl rfl rfl rfl rfl rfl (by decide) rfl)
  · exact (run_forM_singleton _ _ _).trans (run_addCables_singleton rfl rfl rfl rfl
      (Edit.run_connect_of_successors_eq_nil rfl rfl rfl rfl rfl rfl (by decide) rfl))
  · refine (run_forM_singleton _ _ _).trans (run_addOutput_eq_ok_iff.2 ⟨_, rfl, ⟨2⟩, ?_⟩)
    exact Edit.run_connect_of_successors_eq_nil rfl rfl rfl rfl rfl rfl (by decide) rfl

theorem consistent_twoSteps :
    ((twoSteps.steps.map Step.number).Nodup ∧ twoSteps.Supplies 1 2 ∧
      twoSteps.build .standard = .ok builtTwoSteps) ∧
    twoSteps.Consistent ∧ (∃ v : Key Double, v.Depicts .standard twoSteps builtTwoSteps) ∧
    ∃ d', { twoSteps with steps := twoSteps.steps.reverse }.build .standard = .ok d' ∧
      builtTwoSteps.Isomorphic d' := by
  have hn : (twoSteps.steps.map Step.number).Nodup := by decide
  have hsupplies : twoSteps.Supplies 1 2 :=
    ⟨by decide, _, List.mem_cons_self, rfl, _, List.mem_cons_self, rfl⟩
  obtain ⟨hiff, hshows, horder⟩ := build_iff_consistent hn .standard
  obtain ⟨v, hv, -⟩ := hshows builtTwoSteps build_twoSteps
  have hturned : twoSteps.Reorders { twoSteps with steps := twoSteps.steps.reverse } :=
    ⟨.refl _, List.reverse_perm _, .refl _⟩
  obtain ⟨hboth, hsame⟩ := horder _ hturned
  obtain ⟨d', hd'⟩ := hboth.2 ⟨_, build_twoSteps⟩
  exact ⟨⟨hn, hsupplies, build_twoSteps⟩, hiff.1 ⟨_, build_twoSteps⟩, ⟨v, hv⟩, d', hd',
    hsame _ _ build_twoSteps hd'⟩

end Description

end Patchbay
