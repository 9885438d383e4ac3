import Patchbay.Proofs.Description.Depicting
import Patchbay.Proofs.Diagram.Copies

/-!
# Diagrams that show the same

If the steps of a description have different numbers, two diagrams that show it are isomorphic
(`Key.Depicts.isomorphic`): an entry of the one key goes to the same entry of the other. The order
of the entries does not matter, because a description says by name and by number what it means
(`Key.Depicts.reorder`).
-/

namespace Patchbay

namespace Description

open Diagram

variable {α : Type} {number : Nat} {name : String} {s t : Terminal} {type : Option Datatype}
  {side : Side} {x : Step α × CableIn} {o : Output α}

/-! ## What is meant is one thing -/

theorem Mounts.unique {sockets : List Socket} {x y : Socket} {i j : Nat}
    (hx : Mounts sockets name x i) (hy : Mounts sockets name y j) : x = y ∧ i = j := by
  have hxy := hx.only.symm.trans hy.only
  obtain ⟨-, hall⟩ := exists_mounts_iff.1 ⟨x, hx⟩
  obtain ⟨⟨z, hz, hname⟩, -⟩ := exists_mounts_iff.1 ⟨y, hy⟩
  exact ⟨List.singleton_inj.1 hxy, (hall j z hz hname).symm⟩

namespace Key

variable {v v' : Key α} {f : ShapeId → ShapeId} {g : CableId → CableId}

theorem Plug.unique {t' : Terminal} {type' : Option Datatype}
    (h : v.Plug number side name t type) (h' : v.Plug number side name t' type') : t = t' := by
  obtain ⟨hq, hx⟩ := h
  obtain ⟨hq', hx'⟩ := h'
  cases hq.symm.trans hq'
  obtain ⟨-, rfl⟩ := hx.unique hx'
  rfl

theorem Source.unique {s' : Terminal} {type' : Option Datatype}
    (h : v.Source number name s type) (h' : v.Source number name s' type') : s = s' := by
  cases number with
  | zero =>
    obtain ⟨i, id, hi, rfl, -⟩ := source_zero_iff.1 h
    obtain ⟨i', id', hi', rfl, -⟩ := source_zero_iff.1 h'
    cases hi.symm.trans hi'
    rfl
  | succ n => exact (source_succ_iff.1 h).unique (source_succ_iff.1 h')

/-! ## Keys in another order -/

def Distinct (v : Key α) : Prop := (v.steps.map fun e => e.1.number).Nodup

theorem Distinct.first?_eq_some_iff (h : v.Distinct) {e : Step α × ShapeId} :
    v.first? number = some e ↔ e ∈ v.steps ∧ e.1.number = number :=
  find?_eq_some_iff_of_nodup h

/-- The entries are the same, in another order. -/
structure Reorders (v v' : Key α) : Prop where
  inputs : v'.inputs.Perm v.inputs
  steps : v'.steps.Perm v.steps
  cables : v'.cables.Perm v.cables
  outputs : v'.outputs.Perm v.outputs

theorem Reorders.distinct (h : v.Reorders v') (hn : v.Distinct) : v'.Distinct :=
  (h.steps.map _).nodup_iff.2 hn

theorem Plug.reorder (hn : v.Distinct) (hr : v.Reorders v') (h : v.Plug number side name t type) :
    v'.Plug number side name t type := by
  obtain ⟨hq, hx⟩ := h
  obtain ⟨hmem, hnumber⟩ := hn.first?_eq_some_iff.1 hq
  exact .mk ((hr.distinct hn).first?_eq_some_iff.2 ⟨hr.steps.mem_iff.2 hmem, hnumber⟩) hx

theorem Source.reorder (hn : v.Distinct) (hr : v.Reorders v') (h : v.Source number name s type) :
    v'.Source number name s type := by
  cases h with
  | input hi => exact .input ((filter_eq_singleton_of_perm hr.inputs).2 hi)
  | step hne h => exact .step hne (h.reorder hn hr)

variable [Scalar α] {settings : Settings α} {p : Description α} {d d' : Diagram α}

theorem Depicts.reorder (h : v.Depicts settings p d) (hn : v.Distinct) (hr : v.Reorders v') :
    v'.Depicts settings p d := by
  have hshapes : v'.shapes.Perm v.shapes :=
    ((hr.inputs.map _).append (hr.steps.map _)).append (hr.outputs.map _)
  have hwires : v'.wires.Perm v.wires := (hr.cables.map _).append (hr.outputs.map _)
  refine ⟨⟨fun hi => h.input (hr.inputs.mem_iff.1 hi), fun hq => h.step (hr.steps.mem_iff.1 hq)⟩,
    ⟨(hr.inputs.map _).trans h.inputs, (hr.steps.map _).trans h.steps,
      (hr.cables.map _).trans h.cables, (hr.outputs.map _).trans h.outputs⟩,
    hshapes.nodup_iff.2 h.nodup_shapes, fun id => hshapes.mem_iff.trans (h.mem_shapes id),
    hwires.nodup_iff.2 h.nodup_wires, fun c => hwires.mem_iff.trans (h.mem_wires c),
    fun hx => ?_, fun ho => ?_⟩
  · obtain ⟨s, t, hc, type, expected, hs, ht, hfits⟩ := h.cable (hr.cables.mem_iff.1 hx)
    exact ⟨s, t, hc, type, expected, hs.reorder hn hr, ht.reorder hn hr, hfits⟩
  · obtain ⟨hbody, s, hc, type, hs, hfits⟩ := h.output (hr.outputs.mem_iff.1 ho)
    exact ⟨hbody, s, hc, type, hs.reorder hn hr, hfits⟩

/-! ## Keys with other names -/

/-- The key with other names for shapes and cables. -/
def rename (v : Key α) (f : ShapeId → ShapeId) (g : CableId → CableId) : Key α where
  inputs := v.inputs.map (Prod.map id f)
  steps := v.steps.map (Prod.map id f)
  cables := v.cables.map (Prod.map id g)
  outputs := v.outputs.map (Prod.map id (Prod.map f g))

omit [Scalar α] in
theorem first?_rename (v : Key α) (f : ShapeId → ShapeId) (g : CableId → CableId) (number : Nat) :
    (v.rename f g).first? number = (v.first? number).map (Prod.map id f) :=
  List.find?_map

omit [Scalar α] in
theorem Plug.rename (h : v.Plug number side name t type) :
    (v.rename f g).Plug number side name (t.rename f) type := by
  obtain ⟨hq, hx⟩ := h
  exact .mk (by rw [first?_rename, hq]; rfl) hx

omit [Scalar α] in
theorem Source.rename (h : v.Source number name s type) :
    (v.rename f g).Source number name (s.rename f) type := by
  cases h with
  | @input name i shape hi =>
    refine .input ?_
    have hfilter : (v.rename f g).inputs.filter (fun e => decide (e.1.name = name)) =
        (v.inputs.filter fun e => decide (e.1.name = name)).map (Prod.map id f) :=
      List.filter_map
    rw [hfilter, hi]
    rfl
  | step hne h => exact .step hne h.rename

omit [Scalar α] in
theorem shapes_rename (v : Key α) (f : ShapeId → ShapeId) (g : CableId → CableId) :
    (v.rename f g).shapes = v.shapes.map f := by
  simp [shapes, rename, Function.comp_def]

omit [Scalar α] in
theorem wires_rename (v : Key α) (f : ShapeId → ShapeId) (g : CableId → CableId) :
    (v.rename f g).wires = v.wires.map g := by
  simp [wires, rename, Function.comp_def]

theorem Depicts.mem_attached (h : v.Depicts settings p d) {c : CableId} :
    c ∈ d.attached ↔ c ∈ v.wires := by
  constructor
  · rintro ⟨s, t, hc⟩
    exact (h.mem_wires c).2 (Option.isSome_of_eq_some hc)
  · intro hc
    rcases List.mem_append.1 hc with hc | hc
    · obtain ⟨⟨x, c⟩, hx, rfl⟩ := List.mem_map.1 hc
      obtain ⟨s, t, hends, -⟩ := h.cable hx
      exact ⟨s, t, hends⟩
    · obtain ⟨⟨o, shape, c⟩, ho, rfl⟩ := List.mem_map.1 hc
      obtain ⟨-, s, hends, -⟩ := h.output ho
      exact ⟨s, _, hends⟩

/-- A shape has the same kind, label and magnets under its other name. -/
theorem Depicts.body?_rename (h : v.Depicts settings p d)
    (h' : (v.rename f g).Depicts settings p d') {i : ShapeId} (hi : i ∈ v.shapes) :
    d'.body? (f i) = d.body? i := by
  rcases List.mem_append.1 hi with hi | hi
  · rcases List.mem_append.1 hi with hi | hi
    · obtain ⟨⟨a, i⟩, ha, rfl⟩ := List.mem_map.1 hi
      exact (h'.input (List.mem_map_of_mem ha)).trans (h.input ha).symm
    · obtain ⟨⟨q, i⟩, hq, rfl⟩ := List.mem_map.1 hi
      exact (h'.step (List.mem_map_of_mem hq)).trans (h.step hq).symm
  · obtain ⟨⟨o, i, c⟩, ho, rfl⟩ := List.mem_map.1 hi
    exact (h'.output (List.mem_map_of_mem ho)).1.trans (h.output ho).1.symm

/-- A cable joins the same magnets under its other name. -/
theorem Depicts.ends?_rename (h : v.Depicts settings p d)
    (h' : (v.rename f g).Depicts settings p d') {c : CableId}
    (hc : d.ends? c = some (s, some t)) :
    d'.ends? (g c) = some (s.rename f, some (t.rename f)) := by
  rcases List.mem_append.1 (h.mem_attached.1 ⟨s, t, hc⟩) with hmem | hmem
  · obtain ⟨⟨x, c⟩, hx, rfl⟩ := List.mem_map.1 hmem
    obtain ⟨s₁, t₁, hends, type, expected, hs, ht, -⟩ := h.cable hx
    obtain ⟨s₂, t₂, hends', type', expected', hs', ht', -⟩ := h'.cable (List.mem_map_of_mem hx)
    cases hc.symm.trans hends
    rw [hs.rename.unique hs', ht.rename.unique ht']
    exact hends'
  · obtain ⟨⟨o, i, c⟩, ho, rfl⟩ := List.mem_map.1 hmem
    obtain ⟨-, s₁, hends, type, hs, -⟩ := h.output ho
    obtain ⟨-, s₂, hends', type', hs', -⟩ := h'.output (List.mem_map_of_mem ho)
    cases hc.symm.trans hends
    rw [hs.rename.unique hs']
    exact hends'

/-- A diagram that shows the same with other names is isomorphic. -/
theorem Depicts.isomorphic_rename (h : v.Depicts settings p d)
    (h' : (v.rename f g).Depicts settings p d') : d.Isomorphic d' := by
  have hshapes := h'.nodup_shapes
  have hwires := h'.nodup_wires
  rw [shapes_rename] at hshapes
  rw [wires_rename] at hwires
  have hlive : {i | (d.body? i).isSome} = {i | i ∈ v.shapes} :=
    Set.ext fun i => (h.mem_shapes i).symm
  have hlive' : {i | (d'.body? i).isSome} = {i | i ∈ v.shapes.map f} :=
    Set.ext fun i => (shapes_rename v f g ▸ h'.mem_shapes i).symm
  have hattached : d.attached = {c | c ∈ v.wires} := Set.ext fun c => h.mem_attached
  have hattached' : d'.attached = {c | c ∈ v.wires.map g} :=
    Set.ext fun c => wires_rename v f g ▸ h'.mem_attached
  refine ⟨f, g, ?_, fun i hi => h.body?_rename h' ((h.mem_shapes i).2 hi), ?_,
    fun c s t hc => h.ends?_rename h' hc⟩
  · rw [hlive, hlive']
    exact bijOn_of_nodup_map hshapes
  · rw [hattached, hattached']
    exact bijOn_of_nodup_map hwires

omit [Scalar α] in
/-- Two keys with the same entries in the same order differ in names only. -/
theorem exists_eq_rename (hin : v'.inputs.map Prod.fst = v.inputs.map Prod.fst)
    (hst : v'.steps.map Prod.fst = v.steps.map Prod.fst)
    (hca : v'.cables.map Prod.fst = v.cables.map Prod.fst)
    (hout : v'.outputs.map Prod.fst = v.outputs.map Prod.fst) (hshapes : v.shapes.Nodup)
    (hwires : v.wires.Nodup) : ∃ f g, v' = v.rename f g := by
  have hlen : ∀ {β ι ι' : Type} {l : List (β × ι)} {m : List (β × ι')},
      m.map Prod.fst = l.map Prod.fst → l.length = m.length := fun heq => by
    simpa using (congrArg List.length heq).symm
  obtain ⟨f, hf⟩ := exists_map_eq (m := v'.shapes) hshapes
    (by simp [shapes, hlen hin, hlen hst, hlen hout])
  obtain ⟨g, hg⟩ := exists_map_eq (m := v'.wires) hwires (by simp [wires, hlen hca, hlen hout])
  rw [shapes, shapes, List.map_append, List.map_append] at hf
  rw [wires, wires, List.map_append] at hg
  obtain ⟨hf, hfout⟩ := List.append_inj hf (by simp [hlen hin, hlen hst])
  obtain ⟨hfin, hfst⟩ := List.append_inj hf (by simp [hlen hin])
  obtain ⟨hgca, hgout⟩ := List.append_inj hg (by simp [hlen hca])
  have hsnd : v'.outputs.map Prod.snd = (v.outputs.map Prod.snd).map (Prod.map f g) := by
    refine eq_map_prodMap ?_ ?_
    · simpa [Function.comp_def] using hfout.symm
    · simpa [Function.comp_def] using hgout.symm
  have hid : ∀ {β : Type} (l : List β), l.map id = l := List.map_id
  refine ⟨f, g, ?_⟩
  cases v'
  simp only [rename, mk.injEq]
  exact ⟨eq_map_prodMap (hin.trans (hid _).symm) hfin.symm,
    eq_map_prodMap (hst.trans (hid _).symm) hfst.symm,
    eq_map_prodMap (hca.trans (hid _).symm) hgca.symm,
    eq_map_prodMap (hout.trans (hid _).symm) hsnd⟩

/-- If the steps have different numbers, two diagrams that show one description are isomorphic. -/
theorem Depicts.isomorphic (h : v.Depicts settings p d) (h' : v'.Depicts settings p d')
    (hn : (p.steps.map Step.number).Nodup) : d.Isomorphic d' := by
  have hdistinct : v'.Distinct := by
    have hperm := (h'.steps.map Step.number).nodup_iff.2 hn
    rwa [List.map_map] at hperm
  -- the entries of the second key in the order of the first one
  obtain ⟨inputs, hinputs, hin⟩ := exists_perm_map_eq (h'.inputs.trans h.inputs.symm)
  obtain ⟨steps, hsteps, hst⟩ := exists_perm_map_eq (h'.steps.trans h.steps.symm)
  obtain ⟨cables, hcables, hca⟩ := exists_perm_map_eq (h'.cables.trans h.cables.symm)
  obtain ⟨outputs, houtputs, hout⟩ := exists_perm_map_eq (h'.outputs.trans h.outputs.symm)
  have hsame : Depicts ⟨inputs, steps, cables, outputs⟩ settings p d' :=
    h'.reorder hdistinct ⟨hinputs, hsteps, hcables, houtputs⟩
  obtain ⟨f, g, heq⟩ : ∃ f g, (⟨inputs, steps, cables, outputs⟩ : Key α) = v.rename f g :=
    exists_eq_rename hin hst hca hout h.nodup_shapes h.nodup_wires
  exact h.isomorphic_rename (heq ▸ hsame)

end Key

end Description

end Patchbay
