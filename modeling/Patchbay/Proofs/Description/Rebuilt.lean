import Patchbay.Proofs.Description.Described
import Patchbay.Proofs.Phases.Renamed

/-!
# Rebuilt diagrams

A diagram is built again from its description: it has the same shapes and cables under other names,
and the shapes come in the order in which they were described (`Rebuilt`). It is then described as
before (`Rebuilt.ofCanvas_eq`). Shapes are read in the order in which they come already, ties and
all, the phases are the same, and so each thing has the number that it had.
-/

namespace Patchbay

namespace Description

open Diagram
open List (Forall₂)
open Phases (inReading)

variable {α : Type} {d e : Diagram α} {f : ShapeId → ShapeId} {g : CableId → CableId}
  {order : List ShapeId} {id : ShapeId} {s t : Terminal} {n n' : Nat} {name name' : String}

/-! ## Sources of cables -/

theorem Denotes.rename (hden : Denotes d order s n name) (h : Isomorphism d e f g) :
    Denotes e (order.map f) (s.rename f) n name := by
  cases hden with
  | @input a ha hin =>
    obtain ⟨a', ha', hbody⟩ := h.exists_shape ha
    have hlabel : a'.label = a.label := congrArg Shape.Body.label hbody
    rw [← hlabel]
    exact .input ha' (by rw [bodily_isInput a' a hbody, hin])
  | @step m k hk hm =>
    obtain ⟨m', hm', hclear⟩ := h.exists_magnet hm
    have hlabel := congrArg Magnet.label hclear
    change m'.label = m.label at hlabel
    rw [← hlabel]
    exact .step (by rw [List.getElem?_map, hk]; rfl) hm'

theorem FedFrom.rename (hfed : FedFrom d order t n name) (h : Isomorphism d e f g) :
    FedFrom e (order.map f) (t.rename f) n name := by
  obtain ⟨c, s, hc, hden⟩ := hfed
  exact ⟨g c, s.rename f, h.ends c s t hc, hden.rename h⟩

/-- A magnet is denoted in one way. -/
theorem Denotes.unique (ho : Enumerates d Shape.isStep order) (h : Denotes d order s n name)
    (h' : Denotes d order s n' name') : n = n' ∧ name = name' := by
  have hstep : ∀ {k : Nat}, order[k]? = some s.shape → d.has Shape.isStep s.shape = true :=
    fun hk => (ho.2 _).1 (List.mem_of_getElem? hk)
  have hexcludes : ∀ {a : Shape α} {k : Nat}, d.shape? s.shape = some a → a.isInput = true →
      order[k]? ≠ some s.shape := by
    intro a k ha hin hk
    have hnot := not_isStep_of_isInput (has_iff.2 ⟨a, ha, hin⟩)
    rw [hstep hk] at hnot
    cases hnot
  cases h with
  | input ha hin =>
    cases h' with
    | input ha' hin' =>
      cases ha.symm.trans ha'
      exact ⟨rfl, rfl⟩
    | step hk' _ => exact absurd hk' (hexcludes ha hin)
  | step hk hm =>
    cases h' with
    | input ha' hin' => exact absurd hk (hexcludes ha' hin')
    | step hk' hm' =>
      cases hm.symm.trans hm'
      have hlt := (List.getElem?_eq_some_iff.1 hk).1
      rw [(List.getElem?_inj hlt ho.1).1 (hk.trans hk'.symm)]
      exact ⟨rfl, rfl⟩

/-- What feeds a magnet is one thing. -/
theorem FedFrom.unique [Scalar α] (hs : d.Sound []) (ho : Enumerates d Shape.isStep order)
    (h : FedFrom d order t n name) (h' : FedFrom d order t n' name') : n = n' ∧ name = name' := by
  obtain ⟨c, s, hc, hden⟩ := h
  obtain ⟨c', s', hc', hden'⟩ := h'
  have hsame : c' = c := hs.eq_of_touches_input (touches_dest hc) (touches_dest hc')
    (hs.dest_side hc)
  rw [hsame, hc] at hc'
  cases hc'
  exact hden.unique ho hden'

/-! ## Sockets -/

/-- Shapes that differ in their places and cables only have the same sockets. -/
theorem map_socket_congr {a a' : Shape α} (h : a'.body = a.body) (side : Side) :
    (a'.magnets side).map Magnet.socket = (a.magnets side).map Magnet.socket := by
  rw [← Magnet.map_socket_clear, ← Magnet.map_socket_clear (a.magnets side)]
  cases side
  · exact congrArg (fun b => b.inputs.map Magnet.socket) h
  · exact congrArg (fun b => b.outputs.map Magnet.socket) h

theorem socketsOf_congr {ms ms' : List (Magnet α)}
    (h : ms'.map Magnet.socket = ms.map Magnet.socket) : socketsOf ms' = socketsOf ms := by
  have hsockets : ∀ ms : List (Magnet α), socketsOf ms =
      (ms.map Magnet.socket).zipIdx.map fun x => ⟨x.1.label, x.2 + 1, x.1.datatype⟩ := fun ms => by
    rw [socketsOf, List.zipIdx_map, List.map_map]
    rfl
  rw [hsockets, h, ← hsockets]

/-! ## The same under other names -/

variable [Scalar α]

theorem orderOf_ofDiagram {p : Phases} (settings : Settings α) (h : Phases.compute d = .ok p) :
    orderOf (Canvas.ofDiagram settings d) = p.flatten := by
  simp [orderOf, Canvas.ofDiagram, Canvas.updatePhases, h, Except.toOption]

/-- The second diagram has the shapes and cables of the first, a complete one, under other names.
Each shape is at its place, and they come in the order in which they are described. -/
structure Rebuilt (d e : Diagram α) (f : ShapeId → ShapeId) (g : CableId → CableId)
    (p : Phases) : Prop extends Isomorphism d e f g where
  before : d.Sound []
  after : e.Sound []
  complete : d.Complete
  landed : ∀ c s, d.ends? c ≠ some (s, none)
  centre : ∀ id, (d.body? id).isSome → e.centre? (f id) = d.centre? id
  phases : Phases.compute d = .ok p
  inputs : e.inputs = (inReading d d.inputs).map f
  steps : e.steps = p.flatten.map f
  outputs : e.outputs = (inReading d d.outputs).map f

namespace Rebuilt

variable {a a' : Shape α} {m m' : Magnet α} {p : Phases}

theorem enumerates (h : Rebuilt d e f g p) : Enumerates d Shape.isStep p.flatten :=
  enumerates_of_perm h.before.toShapesListed h.before.steps_eq
    (Phases.layered_of_compute h.before h.phases).perm

theorem enumerates_map (h : Rebuilt d e f g p) : Enumerates e Shape.isStep (p.flatten.map f) :=
  enumerates_of_perm h.after.toShapesListed h.after.steps_eq (.of_eq h.steps.symm)

theorem complete_after (h : Rebuilt d e f g p) : e.Complete :=
  h.toIsomorphism.complete h.before h.after h.landed h.complete

/-- A shape is there, and where it was. -/
theorem exists_same (h : Rebuilt d e f g p) (ha : d.shape? id = some a) :
    ∃ a', e.shape? (f id) = some a' ∧ a'.body = a.body ∧ a'.centre = a.centre := by
  obtain ⟨a', ha', hbody⟩ := h.exists_shape ha
  have hcentre := h.centre id (Option.isSome_of_eq_some (body?_eq_some ha))
  rw [centre?, centre?, ha, ha', Option.map_some, Option.map_some, Option.some.injEq] at hcentre
  exact ⟨a', ha', hbody, hcentre⟩

/-- What is said of the source of a cable does not depend on the names. -/
theorem sourceOf_eq (h : Rebuilt d e f g p) (hm : d.magnet? t = some m)
    (hm' : e.magnet? (t.rename f) = some m') (ht : t.side = .input) :
    sourceOf e (p.flatten.map f) m' = sourceOf d p.flatten m := by
  have hne : m.cables ≠ [] := (h.before.exists_touches_iff hm).1
    ((h.before.complete_iff_submittable.1 h.complete).connected t m hm)
  obtain ⟨n, name, hsource, hfed⟩ := exists_sourceOf h.before h.enumerates hm ht hne
  have hrenamed := hfed.rename h.toIsomorphism
  obtain ⟨c, s, hc, -⟩ := hfed
  have hne' : m'.cables ≠ [] :=
    List.ne_nil_of_mem ((h.after.mem_cables hm' _).2 (touches_dest (h.ends c s t hc)))
  obtain ⟨n', name', hsource', hagain⟩ := exists_sourceOf h.after h.enumerates_map hm' ht hne'
  obtain ⟨rfl, rfl⟩ := hrenamed.unique h.after h.enumerates_map hagain
  rw [hsource, hsource']

theorem forall₂_inputs (h : Rebuilt d e f g p) (ha : d.shape? id = some a)
    (ha' : e.shape? (f id) = some a') (hbody : a'.body = a.body) :
    Forall₂ (fun m' m => m'.socket = m.socket ∧
      sourceOf e (p.flatten.map f) m' = sourceOf d p.flatten m) a'.inputs a.inputs := by
  refine forall₂_imp_getElem? (forall₂_of_map_eq (map_socket_congr hbody .input))
    fun i m' m hm' hm hsocket => ⟨hsocket, ?_⟩
  have hplace : d.magnet? ⟨id, .input, i⟩ = some m := (magnet?_of_shape? ha).trans hm
  have hplace' : e.magnet? ⟨f id, .input, i⟩ = some m' := (magnet?_of_shape? ha').trans hm'
  exact h.sourceOf_eq hplace hplace' rfl

/-! ## Single descriptions -/

/-- An input is described as before. -/
theorem input_eq (h : Rebuilt d e f g p) (settings : Settings α) (ha : d.shape? id = some a)
    (index : Nat) : ∃ a', e.shape? (f id) = some a' ∧
      Input.ofShape settings a' index = Input.ofShape settings a index := by
  obtain ⟨a', ha', hbody, hcentre⟩ := h.exists_same ha
  have hkind : a'.kind = a.kind := congrArg Shape.Body.kind hbody
  have hlabel : a'.label = a.label := congrArg Shape.Body.label hbody
  refine ⟨a', ha', ?_⟩
  simp only [Input.ofShape, hkind, hlabel, hcentre]

/-- A step is described as before. -/
theorem step_eq (h : Rebuilt d e f g p) (settings : Settings α) (hid : id ∈ p.flatten)
    (ha : d.shape? id = some a) : ∃ a', e.shape? (f id) = some a' ∧
      Step.ofShape settings e (p.flatten.map f) (f id) a' =
        Step.ofShape settings d p.flatten id a := by
  obtain ⟨a', ha', hbody, hcentre⟩ := h.exists_same ha
  have hlabel : a'.label = a.label := congrArg Shape.Body.label hbody
  have hin : socketsOf a'.inputs = socketsOf a.inputs :=
    socketsOf_congr (map_socket_congr hbody .input)
  have hout : socketsOf a'.outputs = socketsOf a.outputs :=
    socketsOf_congr (map_socket_congr hbody .output)
  have hnumber : numberIn (p.flatten.map f) (f id) = numberIn p.flatten id := by
    obtain ⟨n, hn, hget⟩ := exists_numberIn hid
    rw [hn]
    exact numberIn_of_getElem? h.enumerates_map.1 (by rw [List.getElem?_map, hget, Option.map_some])
  refine ⟨a', ha', ?_⟩
  simp only [Step.ofShape, hlabel, hin, hout, hnumber, hcentre, Step.mk.injEq, true_and]
  refine filterMap_eq_of_forall₂ ((h.forall₂_inputs ha ha' hbody).imp fun m' m hm => ?_)
  rw [hm.2, show m'.label = m.label from congrArg Patchbay.Socket.label hm.1]

/-- An output is described as before. -/
theorem output_eq (h : Rebuilt d e f g p) (settings : Settings α) (ha : d.shape? id = some a)
    (index : Nat) : ∃ a', e.shape? (f id) = some a' ∧
      Output.ofShape? settings e (p.flatten.map f) a' index =
        Output.ofShape? settings d p.flatten a index := by
  obtain ⟨a', ha', hbody, hcentre⟩ := h.exists_same ha
  have hlabel : a'.label = a.label := congrArg Shape.Body.label hbody
  have hpairs := h.forall₂_inputs ha ha' hbody
  refine ⟨a', ha', ?_⟩
  unfold Output.ofShape?
  rw [hlabel, hcentre]
  generalize a'.inputs = ms' at hpairs
  generalize a.inputs = ms at hpairs
  cases hpairs with
  | nil => rfl
  | @cons m' m _ _ hm _ =>
    have hdatatype : m'.datatype = m.datatype := congrArg Patchbay.Socket.datatype hm.1
    simp only [List.head?_cons, Option.bind_eq_bind, Option.bind_some, hm.2, hdatatype]

/-! ## The whole description -/

variable [Std.TransCmp (Isometric.readingOrder (α := α))]

/-- What is made of the shapes of a list in the order in which they are read is made of them again,
if the same is made of each. -/
theorem filterMap_numbered (h : Rebuilt d e f g p) {β : Type} {kind : Shape α → Bool}
    {ids ids' : List ShapeId} (hids : ids = d.order.filter (d.has kind))
    (hids' : ids' = (inReading d ids).map f) {describe : Shape α × Nat → Option β}
    {describe' : Shape α × Nat → Option β}
    (hsame : ∀ id a n, d.shape? id = some a → ∃ a', e.shape? (f id) = some a' ∧
      describe' (a', n) = describe (a, n)) :
    (numbered e ids').filterMap describe' = (numbered d ids).filterMap describe := by
  have hlive : ∀ id ∈ ids, (d.shape? id).isSome := by
    intro id hid
    rw [hids, h.before.toShapesListed.mem_filter_has] at hid
    rw [← isSome_body?]
    exact isSome_body?_of_has hid
  have hsorted : inReading e ids' = (inReading d ids).map f := by
    rw [hids']
    exact Phases.inReading_map (fun id hid => h.centre id (isSome_body? d id ▸ hlive id hid)) hlive
  have hmem : ∀ {id}, id ∈ inReading d ids ↔ id ∈ ids := (stableSort_perm _ ids).mem_iff
  change ((inReading e ids').zipIdx.filterMap _).filterMap _ =
    ((inReading d ids).zipIdx.filterMap _).filterMap _
  rw [hsorted, List.zipIdx_map, List.filterMap_map, List.filterMap_filterMap,
    List.filterMap_filterMap]
  refine List.filterMap_congr fun x hx => ?_
  obtain ⟨id, n⟩ := x
  have hid : id ∈ ids := hmem.1 (List.fst_mem_of_mem_zipIdx hx)
  obtain ⟨a, ha⟩ := Option.isSome_iff_exists.1 (hlive id hid)
  obtain ⟨a', ha', heq⟩ := hsame id a (n + 1) ha
  simp only [Function.comp_apply, Prod.map_apply, id_eq, ha, ha', Option.map_some,
    Option.bind_some, heq]

theorem orderOf_eq (h : Rebuilt d e f g p) (settings : Settings α) :
    orderOf (Canvas.ofDiagram settings e) = p.flatten.map f := by
  rw [orderOf_ofDiagram settings (h.toIsomorphism.compute h.before h.after h.complete.cabled
    h.complete_after.cabled (fun id hid => h.centre id ?_) h.phases h.steps)]
  · exact List.map_flatten.symm
  · exact Phases.isSome_body?_of_mem_steps h.before hid

/-- What has been rebuilt is described as before. -/
theorem ofCanvas_eq (h : Rebuilt d e f g p) (settings : Settings α) :
    ofCanvas (Canvas.ofDiagram settings e) = ofCanvas (Canvas.ofDiagram settings d) := by
  have hinputs : ((numbered e e.inputs).filterMap fun x =>
      some (Input.ofShape settings x.1 x.2)) = (numbered d d.inputs).filterMap fun x =>
      some (Input.ofShape settings x.1 x.2) := by
    refine h.filterMap_numbered h.before.inputs_eq h.inputs fun id a n ha => ?_
    obtain ⟨a', ha', heq⟩ := h.input_eq settings ha n
    exact ⟨a', ha', congrArg some heq⟩
  have hsteps : ((p.flatten.map f).filterMap fun id => (e.shape? id).map
      (Step.ofShape settings e (p.flatten.map f) id)) = p.flatten.filterMap fun id =>
      (d.shape? id).map (Step.ofShape settings d p.flatten id) := by
    rw [List.filterMap_map]
    refine List.filterMap_congr fun id hid => ?_
    obtain ⟨a, ha, -⟩ := has_iff.1 ((h.enumerates.2 id).1 hid)
    obtain ⟨a', ha', heq⟩ := h.step_eq settings hid ha
    simp only [Function.comp_apply, ha, ha', Option.map_some, heq]
  have houtputs : ((numbered e e.outputs).filterMap fun x =>
      Output.ofShape? settings e (p.flatten.map f) x.1 x.2) = (numbered d d.outputs).filterMap
      fun x => Output.ofShape? settings d p.flatten x.1 x.2 :=
    h.filterMap_numbered h.before.outputs_eq h.outputs fun id a n ha => h.output_eq settings ha n
  rw [List.filterMap_eq_map'] at hinputs
  unfold ofCanvas
  rw [h.orderOf_eq settings, orderOf_ofDiagram settings h.phases]
  exact congr (congrArg₂ Description.mk hinputs hsteps) houtputs

end Rebuilt

end Description

end Patchbay
