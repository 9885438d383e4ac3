import Patchbay.Proofs.Description.Building
import Patchbay.Proofs.Description.Described
import Patchbay.Proofs.Diagram.Copies
import Patchbay.Proofs.Sorting

/-!
# Building a diagram again

What happens when a diagram is built from its own description. The shapes come first, in the order in
which the description gives them. What has been built so far is a copy of a part of the diagram
(`Rebuilding`), in which a name is found just when it denotes one thing in the diagram. So the next
cable is made just when it can be named, and no cable is refused for another reason, since none is in
the way of another in the diagram.
-/

namespace Patchbay

namespace Description

open Diagram Running
open List (Forall₂)

variable {α : Type} {d e : Diagram α} {order all ids is os : List ShapeId} {done : List Terminal}
  {id : ShapeId} {s t : Terminal} {dir : Directory}

/-! ## Lists that are in order -/

/-- Sorting leaves a list that is numbered from one as it is. -/
theorem sortOn_of_numbered {β : Type} {key : β → Nat} {l : List β}
    (h : l.map key = List.range' 1 l.length) : sortOn key l = l := by
  refine stableSort_of_pairwise ((List.pairwise_map.1 (h ▸ List.pairwise_lt_range')).imp ?_)
  intro a b hab hlt
  exact Nat.lt_asymm hab (Nat.compare_eq_lt.1 hlt)

theorem map_index_socketsOf (ms : List (Magnet α)) :
    (socketsOf ms).map Socket.index = List.range' 1 (socketsOf ms).length :=
  calc (socketsOf ms).map Socket.index = (ms.zipIdx.map Prod.snd).map (1 + ·) := by
        rw [socketsOf, List.map_map, List.map_map]
        exact List.map_congr_left fun x _ => Nat.add_comm x.2 1
    _ = List.range' 1 (socketsOf ms).length := by
        rw [List.zipIdx_map_snd, List.map_add_range', socketsOf, List.length_map,
          List.length_zipIdx]

/-- The sockets of described magnets are theirs again. -/
theorem mounted_socketsOf (ms : List (Magnet α)) :
    mounted (socketsOf ms) = ms.map Magnet.socket := by
  rw [mounted, sortOn_of_numbered (map_index_socketsOf ms), socketsOf, List.map_map]
  conv_rhs => rw [← List.zipIdx_map_fst 0 ms, List.map_map]
  rfl

/-! ## Places -/

theorem nodup_all (hi : Enumerates d Shape.isInput is) (ho : Enumerates d Shape.isStep order)
    (hout : Enumerates d Shape.isOutput os) : (is ++ order ++ os).Nodup := by
  refine List.nodup_append'.2 ⟨List.nodup_append'.2 ⟨hi.1, ho.1, ?_⟩, hout.1, ?_⟩
  · intro id hid hid'
    have hexcludes := not_isStep_of_isInput ((hi.2 id).1 hid)
    rw [(ho.2 id).1 hid'] at hexcludes
    cases hexcludes
  · intro id hid hid'
    have houtput := (hout.2 id).1 hid'
    rcases List.mem_append.1 hid with hid | hid
    · rw [not_isOutput_of_isInput ((hi.2 id).1 hid)] at houtput
      cases houtput
    · rw [not_isOutput_of_isStep ((ho.2 id).1 hid)] at houtput
      cases houtput

def placesOf (d : Diagram α) (id : ShapeId) : List Terminal :=
  ((d.shape? id).map (inputPlaces id)).getD []

theorem placesOf_of_shape? {a : Shape α} (h : d.shape? id = some a) :
    placesOf d id = inputPlaces id a := by
  rw [placesOf, h, Option.map_some, Option.getD_some]

theorem shape_of_mem_inputPlaces {a : Shape α} (ht : t ∈ inputPlaces id a) : t.shape = id := by
  obtain ⟨i, -, rfl⟩ := List.mem_map.1 ht
  rfl

theorem nodup_inputPlaces (id : ShapeId) (a : Shape α) : (inputPlaces id a).Nodup :=
  List.nodup_range.map fun _ _ h => congrArg Terminal.index h

def outputPlace (id : ShapeId) : Terminal := ⟨id, .input, 0⟩

/-- The magnets where cables land: those of the steps, and then those of the outputs. -/
def destinations (d : Diagram α) (order os : List ShapeId) : List Terminal :=
  order.flatMap (placesOf d) ++ os.map outputPlace

theorem nodup_destinations (ho : Enumerates d Shape.isStep order)
    (hout : Enumerates d Shape.isOutput os) : (destinations d order os).Nodup := by
  have hshape : ∀ id ∈ order, ∀ t ∈ placesOf d id, t.shape = id := by
    intro id hid t ht
    obtain ⟨a, ha, -⟩ := has_iff.1 ((ho.2 id).1 hid)
    rw [placesOf_of_shape? ha] at ht
    exact shape_of_mem_inputPlaces ht
  refine List.nodup_append'.2 ⟨List.nodup_flatMap.2 ⟨fun id hid => ?_, ?_⟩, ?_, ?_⟩
  · obtain ⟨a, ha, -⟩ := has_iff.1 ((ho.2 id).1 hid)
    rw [placesOf_of_shape? ha]
    exact nodup_inputPlaces id a
  · refine ho.1.imp_of_mem fun hi hj hne t hti htj => hne ?_
    rw [← hshape _ hi t hti, hshape _ hj t htj]
  · exact hout.1.map fun _ _ h => congrArg Terminal.shape h
  · intro t hstep houtput
    obtain ⟨id, hid, ht⟩ := List.mem_flatMap.1 hstep
    obtain ⟨o, ho', rfl⟩ := List.mem_map.1 houtput
    have hexcludes := not_isOutput_of_isStep ((ho.2 id).1 hid)
    rw [← hshape id hid _ ht, outputPlace, (hout.2 o).1 ho'] at hexcludes
    cases hexcludes

/-! ## Shapes -/

variable [Scalar α] {settings : Settings α}

theorem OfInput.body? {i : Input α} (h : OfInput d id i) (hs : d.Sound [])
    (settings : Settings α) : d.body? id = some (i.shape settings).body := by
  obtain ⟨a, ha, hlabel, hkind⟩ := h
  have hbody := body?_eq_some ha
  have hconf := hs.conforming.shape ha
  rw [hbody, Input.shape, ← hlabel]
  cases hdata : i.datatype with
  | none =>
    rw [hdata] at hkind
    exact congrArg some (hconf.eq_rawInput hkind _)
  | some t =>
    rw [hdata] at hkind
    exact congrArg some (hconf.eq_typedInput hkind _)

theorem OfStep.body? {q : Step α} (h : OfStep d order id q) (hs : d.Sound [])
    (hstep : d.has Shape.isStep id = true) (settings : Settings α) :
    d.body? id = some (q.shape settings).body := by
  obtain ⟨a, ha, hlabel, hin, hout, -⟩ := h
  have hbody := body?_eq_some ha
  have hkind : a.body.kind = .step := by
    rw [has_of_shape? ha] at hstep
    cases hk : a.kind <;> simp [Shape.isStep, hk] at hstep
    exact hk
  rw [hbody, Step.shape, ← hlabel, hin, hout, mounted_socketsOf, mounted_socketsOf,
    ← Magnet.map_socket_clear a.inputs, ← Magnet.map_socket_clear a.outputs]
  exact congrArg some ((hs.conforming.shape ha).eq_step hkind _)

theorem OfOutput.body? {o : Output α} (h : OfOutput d order id o) (hs : d.Sound [])
    (settings : Settings α) : d.body? id = some (o.shape settings).body := by
  obtain ⟨a, ha, hlabel, hkind, -⟩ := h
  have hbody := body?_eq_some ha
  rw [hbody, Output.shape, ← hlabel]
  exact congrArg some ((hs.conforming.shape ha).eq_output hkind _)

/-! ## All that there is to build -/

/-- A complete diagram has no other shapes. -/
theorem mem_all (hs : d.Sound []) (hc : d.Complete) (hi : Enumerates d Shape.isInput is)
    (ho : Enumerates d Shape.isStep order) (hout : Enumerates d Shape.isOutput os) (id : ShapeId) :
    id ∈ is ++ order ++ os ↔ (d.body? id).isSome := by
  rw [List.mem_append, List.mem_append, hi.2, ho.2, hout.2, or_assoc]
  constructor
  · rintro (h | h | h) <;> exact isSome_body?_of_has h
  · intro h
    obtain ⟨b, hb⟩ := Option.isSome_iff_exists.1 h
    obtain ⟨a, ha, -⟩ := Option.map_eq_some_iff.1 hb
    simpa [has, ha] using hc.isInput_or hs.toShapesListed ha

/-- Every cable that has landed is at one of the destinations. -/
theorem mem_destinations (hs : d.Sound []) (hc : d.Complete) (ho : Enumerates d Shape.isStep order)
    (hout : Enumerates d Shape.isOutput os) {c : CableId} (hend : d.ends? c = some (s, some t)) :
    t ∈ destinations d order os := by
  obtain ⟨m, hm, -⟩ := hs.dest hend
  obtain ⟨a, ha, hi⟩ := Option.bind_eq_some_iff.1 hm
  have hside : t.side = .input := hs.dest_side hend
  rw [hside] at hi
  rcases hc.isInput_or hs.toShapesListed ha with hin | hstep | houtput
  · have hnil := (hs.conforming.shape ha).inputs_eq_nil hin
    rw [Shape.magnets, hnil] at hi
    cases hi
  · refine List.mem_append_left _ (List.mem_flatMap.2
      ⟨t.shape, (ho.2 _).2 (has_iff.2 ⟨a, ha, hstep⟩), ?_⟩)
    rw [placesOf_of_shape? ha]
    refine List.mem_map.2 ⟨t.index, List.mem_range.2 (List.getElem?_eq_some_iff.1 hi).1, ?_⟩
    rw [← hside]
  · have houtput : d.has Shape.isOutput t.shape = true := has_iff.2 ⟨a, ha, houtput⟩
    have hnot : d.has Shape.isStep t.shape = false := Bool.eq_false_iff.2 fun hstep => by
      rw [not_isOutput_of_isStep hstep] at houtput
      cases houtput
    refine List.mem_append_right _ (List.mem_map.2 ⟨t.shape, (hout.2 _).2 houtput, ?_⟩)
    rw [outputPlace, ← hside, ← hs.conforming.index_eq_zero hnot hm]

/-! ## Looking names up in the copy -/

/-- A part of the diagram has been built again, with all its inputs and steps, and its names can be
looked up. -/
structure Rebuilding (d : Diagram α) (order all : List ShapeId) (dir : Directory)
    (ids : List ShapeId) (done : List Terminal) (e : Diagram α) : Prop
    extends Copied d e all ids done where
  lists : dir.Lists e
  step : ∀ n id, order[n]? = some id → dir.step (n + 1) = .ok (placeIn all id)
  mem_ids : ∀ id, d.has Shape.isInput id = true ∨ id ∈ order → id ∈ ids
  isStep : ∀ id ∈ order, d.has Shape.isStep id = true

theorem Rebuilding.sole_iff (h : Rebuilding d order all dir ids done e) (hid : t.shape ∈ ids) :
    e.Sole (t.rename (placeIn all)) ↔ d.Sole t :=
  ⟨fun he => he.congr (h.body? hid).symm, fun ht => ht.congr (h.body? hid)⟩

theorem Rebuilding.soleInput_iff (h : Rebuilding d order all dir ids done e) (hid : id ∈ ids) :
    e.SoleInput (placeIn all id) ↔ d.SoleInput id := by
  constructor
  · intro he i a b ha hi hin hlabel
    have hmem := h.mem_ids i (.inl hin)
    have hsame := h.body? hmem
    have hplace := he (placeIn all i) a b (h.body? hid ▸ ha) (hsame ▸ hi)
      (has_congr bodily_isInput hsame ▸ hin) hlabel
    exact placeIn_inj (h.isPrefix.subset hmem) hplace
  · intro hi
    refine hi.map (h.body? hid) fun i hin => ?_
    obtain ⟨j, hj, rfl⟩ := h.exists_of_isSome (isSome_body?_of_has hin)
    exact ⟨j, rfl, h.body? hj⟩

/-- The magnet where a cable lands is found just when it is the only one with its label. -/
theorem Rebuilding.magnetNamed_eq_ok_iff (h : Rebuilding d order all dir ids done e)
    (hid : t.shape ∈ ids) {m : Magnet α} (hm : d.magnet? t = some m) {u : Terminal} :
    magnetNamed e (placeIn all t.shape) t.side m.label = .ok u ↔
      d.Sole t ∧ u = t.rename (placeIn all) := by
  obtain ⟨m', hm', hmc⟩ := h.magnet? hid hm
  have hlabel := congrArg Magnet.label hmc
  rw [Description.magnetNamed_eq_ok_iff]
  constructor
  · rintro ⟨⟨hshape, hside⟩, ⟨n, hn, hname⟩, hsole⟩
    obtain ⟨i, side, index⟩ := u
    cases hshape
    cases hside
    have hindex : t.index = index := hsole t.index n m' hn hm' (hlabel.trans hname.symm)
    subst hindex
    exact ⟨(h.sole_iff hid).1 hsole, rfl⟩
  · rintro ⟨hsole, rfl⟩
    exact ⟨⟨rfl, rfl⟩, ⟨m', hm', hlabel⟩, (h.sole_iff hid).2 hsole⟩

/-- An input is found just when no other input has its label. -/
theorem Rebuilding.input_eq_ok_iff (h : Rebuilding d order all dir ids done e) {a : Shape α}
    (ha : d.shape? id = some a) (hin : d.has Shape.isInput id = true) {i : ShapeId} :
    dir.input a.label = .ok i ↔ d.SoleInput id ∧ i = placeIn all id := by
  have hid := h.mem_ids id (.inl hin)
  have hbody : e.body? (placeIn all id) = some a.body := by
    rw [h.body? hid, body?_eq_some ha]
  have hinput : e.has Shape.isInput (placeIn all id) = true := by
    rw [has_congr bodily_isInput (h.body? hid), hin]
  rw [h.lists.input_eq_ok_iff]
  constructor
  · rintro ⟨-, ⟨b, hb, hlabel⟩, hsole⟩
    have hplace := hsole (placeIn all id) b a.body hb hbody hinput hlabel.symm
    subst hplace
    exact ⟨(h.soleInput_iff hid).1 hsole, rfl⟩
  · rintro ⟨hsole, rfl⟩
    exact ⟨hinput, ⟨a.body, hbody, rfl⟩, (h.soleInput_iff hid).2 hsole⟩

/-- The source of a cable is found just when it can be named. -/
theorem Rebuilding.sourceMagnet_eq_ok_iff (h : Rebuilding d order all dir ids done e)
    (hs : d.Sound []) {c : CableId} (hc : d.ends? c = some (s, some t)) {step : Nat}
    {name : String} (hden : Denotes d order s step name) {u : Terminal} :
    sourceMagnet e dir step name = .ok u ↔ d.Nameable s ∧ u = s.rename (placeIn all) := by
  obtain ⟨m, hm, -⟩ := hs.source hc
  have hside : s.side = .output := hs.source_side hc
  -- an input is looked up by its label, a step by its number and then its magnet by its label
  cases hden with
  | @input a ha hin =>
    have hinput : d.has Shape.isInput s.shape = true := has_iff.2 ⟨a, ha, hin⟩
    have hzero := hs.conforming.index_eq_zero (not_isStep_of_isInput hinput) hm
    have hrename : s.rename (placeIn all) = ⟨placeIn all s.shape, .output, 0⟩ := by
      rw [Terminal.rename, hside, hzero]
    rw [sourceMagnet_zero_eq_ok_iff, nameable_iff_soleInput hs.conforming hinput, hrename]
    constructor
    · rintro ⟨i, hi, rfl⟩
      obtain ⟨hsole, rfl⟩ := (h.input_eq_ok_iff ha hinput).1 hi
      exact ⟨hsole, rfl⟩
    · rintro ⟨hsole, rfl⟩
      exact ⟨_, (h.input_eq_ok_iff ha hinput).2 ⟨hsole, rfl⟩, rfl⟩
  | @step n k hk hn =>
    have hmem : s.shape ∈ order := List.mem_of_getElem? hk
    have hfound := h.magnetNamed_eq_ok_iff (h.mem_ids _ (.inr hmem)) hn (u := u)
    rw [sourceMagnet_succ_eq_ok_iff, h.step k _ hk, nameable_iff_sole (h.isStep _ hmem), ← hfound,
      hside]
    constructor
    · rintro ⟨i, hi, hmagnet⟩
      cases hi
      exact hmagnet
    · exact fun hmagnet => ⟨_, rfl, hmagnet⟩

/-! ## Building again -/

/-- The next cable is made again. -/
theorem Rebuilding.connect (h : Rebuilding d order all dir ids done e) (hs : d.Sound [])
    {c : CableId} (hc : d.ends? c = some (s, some t)) (hsource : s.shape ∈ ids)
    (hdest : t.shape ∈ ids) (hnew : t ∉ done) :
    (Edit.connect (s.rename (placeIn all)) (t.rename (placeIn all))).run e =
        (.ok e.nextCable, e.join (s.rename (placeIn all)) (t.rename (placeIn all))) ∧
      Rebuilding d order all dir ids (done ++ [t])
        (e.join (s.rename (placeIn all)) (t.rename (placeIn all))) := by
  obtain ⟨hrun, hcopied⟩ := h.toCopied.connect hs hc hsource hdest hnew
  exact ⟨hrun, hcopied, h.lists.grow (grows_join e _ _), h.step, h.mem_ids, h.isStep⟩

/-- The next cable is made again just when it can be named. -/
theorem Rebuilding.addCable (h : Rebuilding d order all dir ids done e) (hs : d.Sound [])
    {k : CableIn} (hk : OfCable d order t k) (hid : t.shape ∈ ids) (hnew : t ∉ done) :
    GoesThrough ((Description.addCable dir (placeIn all t.shape) k).run e) (d.Named t)
      (Rebuilding d order all dir ids (done ++ [t])) := by
  obtain ⟨⟨m, hm, hlabel⟩, c, s, hc, hden⟩ := hk
  obtain ⟨hrun, hnext⟩ := h.connect hs hc (h.mem_ids _ hden.mem) hid hnew
  have hside : t.side = .input := hs.dest_side hc
  have hdest := fun u => h.magnetNamed_eq_ok_iff hid hm (u := u)
  rw [hside, hlabel] at hdest
  refine goesThrough_of_iff (fun e' => ?_) fun _ => hnext
  simp only [run_addCable_eq_ok_iff, h.sourceMagnet_eq_ok_iff hs hc hden, hdest, hs.named_iff hc]
  constructor
  · rintro ⟨u, ⟨hu, rfl⟩, v, ⟨hv, rfl⟩, x, hx⟩
    obtain ⟨-, rfl⟩ := Prod.mk.inj (hrun.symm.trans hx)
    exact ⟨⟨hu, hv⟩, rfl⟩
  · rintro ⟨⟨hu, hv⟩, rfl⟩
    exact ⟨_, ⟨hu, rfl⟩, _, ⟨hv, rfl⟩, _, hrun⟩

/-- The cables into the next step are made again just when all of them can be named. -/
theorem Rebuilding.addCables (h : Rebuilding d order all dir ids done e) (hs : d.Sound [])
    (hid : id ∈ order) {q : Step α} {places : List Terminal}
    (hstep : dir.step q.number = .ok (placeIn all id)) (hplaces : ∀ t ∈ places, t.shape = id)
    (hcables : Forall₂ (OfCable d order) places q.cables) (hnodup : (done ++ places).Nodup) :
    GoesThrough ((Description.addCables dir q).run e) (∀ t ∈ places, d.Named t)
      (Rebuilding d order all dir ids (done ++ places)) := by
  have hpairs := forall₂_imp_mem hcables (S := fun t k => t.shape = id ∧ OfCable d order t k)
    fun t ht k _ hk => ⟨hplaces t ht, hk⟩
  have hround : ∀ before t k e₁, (t.shape = id ∧ OfCable d order t k) →
      before ++ [t] <+: done ++ places → Rebuilding d order all dir ids before e₁ →
      GoesThrough ((Description.addCable dir (placeIn all id) k).run e₁) (d.Named t)
        (Rebuilding d order all dir ids (before ++ [t])) := by
    rintro before t k e₁ ⟨rfl, hk⟩ hfront hbefore
    -- so the magnet is still free in the copy
    have hdistinct := hnodup.sublist hfront.sublist
    have hnew : t ∉ before :=
      fun ht => (List.nodup_append.1 hdistinct).2.2 t ht t List.mem_cons_self rfl
    exact hbefore.addCable hs hk (h.mem_ids _ (.inr hid)) hnew
  rw [run_addCables_of_step hstep]
  exact goesThrough_forM_of_pairs hround hpairs (List.prefix_refl _) h

/-- The cables into all steps are made again just when all of them can be named. -/
theorem Rebuilding.steps (h : Rebuilding d order all dir ids [] e) (hs : d.Sound [])
    {steps : List (Step α)} (hsteps : Forall₂ (OfStep d order) order steps)
    (hnumber : steps.map Step.number = List.range' 1 steps.length)
    (hnodup : (order.flatMap (placesOf d)).Nodup) :
    GoesThrough ((steps.forM (Description.addCables dir)).run e)
      (∀ t ∈ order.flatMap (placesOf d), d.Named t)
      (Rebuilding d order all dir ids (order.flatMap (placesOf d))) := by
  have hblocks : Forall₂ (fun places q => ∃ id ∈ order, dir.step q.number = .ok (placeIn all id) ∧
      (∀ t ∈ places, t.shape = id) ∧ Forall₂ (OfCable d order) places q.cables)
      (order.map (placesOf d)) steps := by
    refine List.forall₂_map_left_iff.2 (forall₂_imp_getElem? hsteps fun n id q hn hq hof => ?_)
    obtain ⟨a, ha, -, -, -, hcables⟩ := hof
    rw [placesOf_of_shape? ha, eq_of_map_eq_range' hnumber hq]
    exact ⟨id, List.mem_of_getElem? hn, h.step n id hn, fun t => shape_of_mem_inputPlaces, hcables⟩
  have hround : ∀ before places q e₁, (∃ id ∈ order, dir.step q.number = .ok (placeIn all id) ∧
      (∀ t ∈ places, t.shape = id) ∧ Forall₂ (OfCable d order) places q.cables) →
      before ++ places <+: order.flatMap (placesOf d) →
      Rebuilding d order all dir ids before e₁ →
      GoesThrough ((Description.addCables dir q).run e₁) (∀ t ∈ places, d.Named t)
        (Rebuilding d order all dir ids (before ++ places)) := by
    rintro before places q e₁ ⟨id, hid, hstep, hplaces, hcables⟩ hfront hbefore
    exact hbefore.addCables hs hid hstep hplaces hcables (hnodup.sublist hfront.sublist)
  exact goesThrough_forM_of_blocks hround hblocks (List.prefix_refl _) h

/-- The next output is made again, with its cable, just when the cable can be named. -/
theorem Rebuilding.addOutput (h : Rebuilding d order all dir ids done e) (hs : d.Sound [])
    {o : Output α} (ho : OfOutput d order id o) (settings : Settings α)
    (hfront : ids ++ [id] <+: all) (hnew : outputPlace id ∉ done) :
    GoesThrough ((Description.addOutput settings dir o).run e) (d.Named (outputPlace id))
      (Rebuilding d order all dir (ids ++ [id]) (done ++ [outputPlace id])) := by
  have hbody := ho.body? hs settings
  obtain ⟨a, ha, -, hkind, c, s, hend, hden⟩ := ho
  have hc : d.ends? c = some (s, some (outputPlace id)) := hend
  obtain ⟨hname, hcopied⟩ := h.toCopied.addShape hfront (o.conforms_shape settings) hbody
  have hadd : Rebuilding d order all dir (ids ++ [id]) done (e.addShape (o.shape settings)) :=
    ⟨hcopied, h.lists.grow (grows_addShape e rfl), h.step,
      fun i hi => List.mem_append_left _ (h.mem_ids i hi), h.isStep⟩
  obtain ⟨hrun, hnext⟩ := hadd.connect hs hc (hadd.mem_ids _ hden.mem)
    (List.mem_append_right _ List.mem_cons_self) hnew
  have hnot : d.has Shape.isStep id = false := by simp [has_of_shape? ha, Shape.isStep, hkind]
  have hsole : d.Sole (outputPlace id) := hs.conforming.sole hnot
  refine goesThrough_of_iff (fun e' => ?_) fun _ => hnext
  rw [run_addOutput_eq_ok_iff, hs.named_iff hc, hname]
  simp only [h.sourceMagnet_eq_ok_iff hs hc hden]
  constructor
  · rintro ⟨u, ⟨hu, rfl⟩, x, hx⟩
    obtain ⟨-, rfl⟩ := Prod.mk.inj (hrun.symm.trans hx)
    exact ⟨⟨hu, hsole⟩, rfl⟩
  · rintro ⟨⟨hu, -⟩, rfl⟩
    exact ⟨_, ⟨hu, rfl⟩, _, hrun⟩

/-- All outputs are made again just when their cables can be named. -/
theorem Rebuilding.outputs (h : Rebuilding d order (ids ++ os) dir ids done e) (hs : d.Sound [])
    {outputs : List (Output α)} (houtputs : Forall₂ (OfOutput d order) os outputs)
    (settings : Settings α) (hnodup : (done ++ os.map outputPlace).Nodup) :
    GoesThrough ((outputs.forM (Description.addOutput settings dir)).run e)
      (∀ id ∈ os, d.Named (outputPlace id))
      (Rebuilding d order (ids ++ os) dir (ids ++ os) (done ++ os.map outputPlace)) := by
  have hround : ∀ before id o e₁, OfOutput d order id o → before ++ [id] <+: os →
      Rebuilding d order (ids ++ os) dir (ids ++ before) (done ++ before.map outputPlace) e₁ →
      GoesThrough ((Description.addOutput settings dir o).run e₁) (d.Named (outputPlace id))
        (Rebuilding d order (ids ++ os) dir (ids ++ (before ++ [id]))
          (done ++ (before ++ [id]).map outputPlace)) := by
    intro before id o e₁ ho hfront hbefore
    rw [List.map_append, ← List.append_assoc, ← List.append_assoc]
    refine hbefore.addOutput hs ho settings ?_ fun hmem => ?_
    · rw [List.append_assoc]
      exact (List.prefix_append_right_inj ids).2 hfront
    · have hdistinct := hnodup.sublist ((List.prefix_append_right_inj done).2
        (hfront.map outputPlace)).sublist
      rw [List.map_append, ← List.append_assoc] at hdistinct
      exact (List.nodup_append.1 hdistinct).2.2 _ hmem _ List.mem_cons_self rfl
  have hempty : Rebuilding d order (ids ++ os) dir (ids ++ []) (done ++ [].map outputPlace) e := by
    simpa using h
  exact goesThrough_forM_of_pairs hround houtputs (List.prefix_refl _) hempty

/-- Once inputs and steps have been laid down, the cables and outputs can be built again. -/
theorem rebuilding_shapesOf (hs : d.Sound []) (hc : d.Complete) {q : Description α}
    (hq : Describes d order q) (hi : Enumerates d Shape.isInput is)
    (hinputs : Forall₂ (OfInput d) is q.inputs) (hout : Enumerates d Shape.isOutput os)
    (settings : Settings α) :
    Rebuilding d order (is ++ order ++ os) (entered q.inputs q.steps) (is ++ order) []
      (blank.addShapes (shapesOf settings q.inputs q.steps)) := by
  have ho := hq.enumerates
  have hnodup := nodup_all hi ho hout
  have hbodies : Forall₂ (fun id b => d.body? id = some b) (is ++ order)
      ((shapesOf settings q.inputs q.steps).map Shape.body) := by
    rw [shapesOf, List.map_append, List.map_map, List.map_map]
    refine List.rel_append (List.forall₂_map_right_iff.2 ?_) (List.forall₂_map_right_iff.2 ?_)
    · exact hinputs.imp fun id i h => h.body? hs settings
    · exact forall₂_imp_mem hq.steps fun id hid q _ h => h.body? hs ((ho.2 id).1 hid) settings
  refine ⟨⟨mem_all hs hc hi ho hout, hnodup, List.prefix_append _ os, _, [],
    consists_shapesOf settings q.inputs q.steps, hbodies, .nil⟩,
    lists_entered settings q.inputs q.steps, ?_, ?_, ?_⟩
  · intro n id hn
    obtain ⟨p, hp, -⟩ := getElem?_of_forall₂ hq.steps hn
    have hplace : placeIn (is ++ order ++ os) id = ⟨q.inputs.length + n⟩ := by
      refine placeIn_of_getElem? hnodup ?_
      have hlt : n < order.length := (List.getElem?_eq_some_iff.1 hn).1
      rw [← hinputs.length_eq, List.getElem?_append_left (by simpa using hlt),
        List.getElem?_append_right (Nat.le_add_right _ n), Nat.add_sub_cancel_left, hn]
    rw [hplace]
    refine Directory.step_eq_ok (mem_entered_steps.2 ⟨n, p, rfl, hp, ?_⟩) fun i hi => ?_
    · exact eq_of_map_eq_range' hq.step_number hp
    · obtain ⟨m, p', rfl, hp', hnumber⟩ := mem_entered_steps.1 hi
      rw [eq_of_map_eq_range' hq.step_number hp', Nat.add_right_cancel_iff] at hnumber
      rw [hnumber]
  · rintro id (hid | hid)
    · exact List.mem_append_left _ ((hi.2 id).2 hid)
    · exact List.mem_append_right _ hid
  · exact fun id hid => (ho.2 id).1 hid

end Description

end Patchbay
