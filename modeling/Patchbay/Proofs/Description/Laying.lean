import Patchbay.Proofs.Description.Resolving

/-!
# Laying cables

The cables of a description are laid one after the other, and each one is refused for what has been
laid before it. All the same the outcome does not depend on the order: all cables can be laid just
when each of them joins magnets that fit, no two end at the same magnet, and together they close no
loop (`Key.Stands.exists_run_cables`, `Key.Stands.exists_ends_of_run`). The outputs come last and
stand in nobody's way.
-/

namespace Patchbay

open List (Forall₂)

namespace Diagram

open Relation

variable {α : Type} {d : Diagram α} {bodies : List (Shape.Body α)}
  {wires more : List (Terminal × Terminal)} {s t : Terminal}

/-! ## What cables may be laid -/

/-- One of the cables runs from the one shape to the other. -/
def Leads (wires : List (Terminal × Terminal)) (a b : ShapeId) : Prop :=
  ∃ w ∈ wires, w.1.shape = a ∧ w.2.shape = b

/-- No two of the cables end at the same magnet, and they close no loop. -/
structure Layable (wires : List (Terminal × Terminal)) : Prop where
  apart : (wires.map Prod.snd).Nodup
  acyclic : ∀ a, ¬ TransGen (Leads wires) a a

theorem Leads.mono (hsub : ∀ w ∈ wires, w ∈ more) {a b : ShapeId} (h : Leads wires a b) :
    Leads more a b := by
  obtain ⟨w, hw, hends⟩ := h
  exact ⟨w, hsub w hw, hends⟩

/-- If cables may be laid, the next one of them is not in the way of those before it. -/
theorem Layable.next (h : Layable (wires ++ (s, t) :: more)) :
    (∀ w ∈ wires, w.2 ≠ t) ∧ ¬ ReflTransGen (Leads wires) t.shape s.shape := by
  constructor
  · intro w hw heq
    have hapart := h.apart
    rw [List.map_append] at hapart
    exact (List.nodup_append.1 hapart).2.2 _ (List.mem_map_of_mem hw) t (by simp) heq
  · intro hback
    refine h.acyclic s.shape (.head' ⟨(s, t), by simp, rfl, rfl⟩ ?_)
    exact ReflTransGen.mono
      (fun a b hab => Leads.mono (fun w hw => List.mem_append_left _ hw) hab) _ _ hback

variable [Scalar α]

theorem Consists.leads_iff (h : d.Consists bodies wires) {a b : ShapeId} :
    d.Feeds a b ↔ Leads wires a b :=
  h.feeds_iff

/-- Cables that have been laid may be laid. -/
theorem Consists.layable (h : d.Consists bodies wires) : Layable wires where
  apart := by
    refine List.pairwise_map.2 (List.pairwise_iff_getElem.2 fun i j hi hj hij heq => ?_)
    have hends : ∀ k (hk : k < wires.length),
        d.ends? ⟨k⟩ = some (wires[k].1, some wires[k].2) := fun k hk => by
      rw [h.ends, List.getElem?_eq_getElem hk, Option.map_some]
    have hfirst := hends i hi
    have hsecond := hends j hj
    rw [← heq] at hsecond
    -- no two cables have landed at one magnet
    have hsame := h.sound.eq_of_touches_input (touches_dest hfirst) (touches_dest hsecond)
      (h.sound.dest_side hfirst)
    exact Nat.ne_of_lt hij (congrArg CableId.slot hsame).symm
  acyclic a ha := h.sound.acyclic a (TransGen.mono (fun _ _ => h.leads_iff.2) _ _ ha)

/-- The next cable can be laid if it fits and is in the way of none. -/
theorem Consists.exists_connect (h : d.Consists bodies wires) (hs : s.side = .output)
    (ht : t.side = .input) {m n : Magnet α} (hm : d.magnet? s = some m) (hn : d.magnet? t = some n)
    (haccepts : m.accepts n) (hlayable : Layable (wires ++ (s, t) :: more)) :
    ∃ d', (Edit.connect s t).run d = (.ok d.nextCable, d') ∧
      d'.Consists bodies (wires ++ [(s, t)]) := by
  obtain ⟨hfree, hloop⟩ := hlayable.next
  refine ⟨_, h.connect (h.joinFault?_eq_none hs ht hm hn haccepts hfree fun hback => hloop ?_)⟩
  exact ReflTransGen.mono (fun a b => h.leads_iff.1) _ _ hback

/-- A cable that is laid fits. -/
theorem Consists.of_run_connect (h : d.Consists bodies wires) {d' : Diagram α} {c : CableId}
    (hrun : (Edit.connect s t).run d = (.ok c, d')) :
    d'.Consists bodies (wires ++ [(s, t)]) ∧ d.Landable s t := by
  rw [Edit.run_connect] at hrun
  cases hfault : Edit.joinFault? d s t with
  | some e =>
    rw [hfault] at hrun
    cases hrun
  | none =>
    rw [hfault] at hrun
    cases hrun
    exact ⟨(h.connect hfault).2, ((Edit.joinFault?_eq_none_iff h.sound.toWired).1 hfault).2⟩

theorem Consists.body?_addShape_length (h : d.Consists bodies wires) {a : Shape α}
    (ha : a.body.Conforms) : (d.addShape a).body? ⟨bodies.length⟩ = some a.body := by
  rw [(h.addShape ha).body, List.getElem?_concat_length]

/-- No cable is at a shape that is still to come. -/
theorem Consists.shape_ne (h : d.Consists bodies wires) {w : Terminal × Terminal} (hw : w ∈ wires) :
    w.1.shape ≠ ⟨bodies.length⟩ ∧ w.2.shape ≠ ⟨bodies.length⟩ := by
  obtain ⟨k, hk⟩ := List.mem_iff_getElem?.1 hw
  have hends : d.ends? ⟨k⟩ = some (w.1, some w.2) := by rw [h.ends, hk, Option.map_some]
  have hnew : ∀ u, d.Touches ⟨k⟩ u → u.shape ≠ ⟨bodies.length⟩ := by
    intro u hu heq
    have hlive := h.sound.live hu
    rw [heq, h.body, List.getElem?_length] at hlive
    cases hlive
  exact ⟨hnew _ (touches_source hends), hnew _ (touches_dest hends)⟩

end Diagram

namespace Description

open Diagram Running

variable {α : Type} {number : Nat} {name : String} {v : Key α} {side : Side}

/-! ## What cables a description asks for -/

/-- The cables into some steps, each with the step that lists it. -/
def cablesOf (steps : List (Step α)) : List (Step α × CableIn) :=
  steps.flatMap fun q => q.cables.map fun k => (q, k)

/-- Data of the first type may go where the second is expected. -/
def Fits (type expected : Option Datatype) : Prop :=
  type = expected ∨ type = none ∨ expected = none

namespace Key

/-- The cable is to run between these magnets, and they fit. -/
def Joins (v : Key α) (x : Step α × CableIn) (w : Terminal × Terminal) : Prop :=
  ∃ type expected, v.Source x.2.sourceStep x.2.sourceName w.1 type ∧
    v.Plug x.1.number .input x.2.destName w.2 expected ∧ Fits type expected

/-- The cable of the output is to leave this magnet, and they fit. -/
def Yields (v : Key α) (o : Output α) (s : Terminal) : Prop :=
  ∃ type, v.Source o.sourceStep o.sourceName s type ∧ Fits type o.datatype

end Key

variable [Scalar α] {settings : Settings α} {d d' : Diagram α} {dir : Directory}
  {bodies : List (Shape.Body α)} {wires ends : List (Terminal × Terminal)} {steps : List (Step α)}

/-! ## Cables into steps -/

/-- Make a cable into the step that lists it. -/
def layCable (dir : Directory) (x : Step α × CableIn) : Edit α Unit := do
  let dest ← dir.step x.1.number
  addCable dir dest x.2

/-- Making the cables of one step after the other is making all cables in a row. -/
theorem run_forM_addCables (h : ∀ q ∈ steps, ∃ id, dir.step q.number = .ok id) (d : Diagram α) :
    (steps.forM (addCables dir)).run d = ((cablesOf steps).forM (layCable dir)).run d := by
  induction steps generalizing d with
  | nil => rfl
  | cons q steps ih =>
    obtain ⟨id, hid⟩ := h q List.mem_cons_self
    have hlay : (fun k => layCable dir (q, k)) = addCable (α := α) dir id := by
      funext k
      rw [layCable, hid]
      rfl
    rw [cablesOf, List.flatMap_cons, run_forM_append, run_forM_cons, run_bind, run_bind,
      run_addCables_of_step hid, run_forM_map, hlay]
    rcases (q.cables.forM (addCable dir id)).run d with ⟨e | ⟨⟨⟩⟩, d'⟩
    · rfl
    · exact ih (fun q' hq' => h q' (List.mem_cons_of_mem q hq')) d'

namespace Key

theorem Stands.grow (h : v.Stands settings d) (hg : d.Grows d') : v.Stands settings d' where
  input hi := (hg.body? (Option.isSome_of_eq_some (h.input hi))).trans (h.input hi)
  step hq := (hg.body? (Option.isSome_of_eq_some (h.step hq))).trans (h.step hq)

theorem Stands.congr (h : v.Stands settings d) (hb : ∀ i, d'.body? i = d.body? i) :
    v.Stands settings d' :=
  h.grow fun i => .inl (hb i)

/-- A cable that has been laid is one that the description asks for. -/
theorem Stands.joins_of_run (h : v.Stands settings d) (hc : d.Consists bodies wires)
    {x : Step α × CableIn} (hrun : (layCable v.directory x).run d = (.ok ⟨⟩, d')) :
    ∃ w, v.Joins x w ∧ d'.Consists bodies (wires ++ [w]) := by
  obtain ⟨id, hid, hadd⟩ := run_liftM_bind_eq_ok_iff.1 hrun
  obtain ⟨s, hs, t, ht, c, hconnect⟩ := run_addCable_eq_ok_iff.1 hadd
  obtain ⟨type, hsource⟩ := h.sourceMagnet_eq_ok_iff.1 hs
  obtain ⟨expected, hplug⟩ := h.plug_iff.1 ⟨id, hid, ht⟩
  obtain ⟨hnext, hland⟩ := hc.of_run_connect hconnect
  obtain ⟨m, n, hm, hn, -, haccepts⟩ := hland.accepts
  obtain ⟨m', hm', rfl⟩ := h.source_magnet? hsource
  obtain ⟨n', hn', rfl⟩ := h.plug_magnet? hplug
  cases hm.symm.trans hm'
  cases hn.symm.trans hn'
  exact ⟨(s, t), ⟨_, _, hsource, hplug, Magnet.accepts_iff.1 haccepts⟩, hnext⟩

/-- A cable that the description asks for can be laid if it is in the way of none. -/
theorem Stands.exists_run (h : v.Stands settings d) (hc : d.Consists bodies wires)
    {x : Step α × CableIn} {w : Terminal × Terminal} (hw : v.Joins x w)
    (hlayable : Layable (wires ++ w :: ends)) :
    ∃ d', (layCable v.directory x).run d = (.ok ⟨⟩, d') ∧
      d'.Consists bodies (wires ++ [w]) := by
  obtain ⟨type, expected, hsource, hplug, hfits⟩ := hw
  obtain ⟨id, hid, ht⟩ := h.plug_iff.2 ⟨_, hplug⟩
  have hs := h.sourceMagnet_eq_ok_iff.2 ⟨_, hsource⟩
  obtain ⟨m, hm, rfl⟩ := h.source_magnet? hsource
  obtain ⟨n, hn, rfl⟩ := h.plug_magnet? hplug
  obtain ⟨d', hconnect, hnext⟩ := hc.exists_connect hsource.side_eq hplug.side_eq hm hn
    (Magnet.accepts_iff.2 hfits) hlayable
  exact ⟨d', run_liftM_bind_eq_ok_iff.2 ⟨id, hid, run_addCable_eq_ok_iff.2
    ⟨_, hs, _, ht, _, hconnect⟩⟩, hnext⟩

/-- Cables that have all been laid are those that the description asks for. -/
theorem Stands.exists_ends_of_run (h : v.Stands settings d) (hc : d.Consists bodies wires)
    {xs : List (Step α × CableIn)}
    (hrun : (xs.forM (layCable v.directory)).run d = (.ok ⟨⟩, d')) :
    ∃ ends, Forall₂ v.Joins xs ends ∧ v.Stands settings d' ∧
      d'.Consists bodies (wires ++ ends) := by
  induction xs generalizing d wires with
  | nil =>
    cases hrun
    exact ⟨[], .nil, h, by rwa [List.append_nil]⟩
  | cons x xs ih =>
    obtain ⟨⟨⟩, d₁, hfirst, hrest⟩ := run_bind_eq_ok_iff.1 hrun
    obtain ⟨w, hw, hnext⟩ := h.joins_of_run hc hfirst
    obtain ⟨ends, hends, hstands, hall⟩ :=
      ih (h.congr fun i => (hnext.body i).trans (hc.body i).symm) hnext hrest
    exact ⟨w :: ends, .cons hw hends, hstands, by rwa [List.append_assoc] at hall⟩

/-- Cables that the description asks for can all be laid if they are in the way of none. -/
theorem Stands.exists_run_cables (h : v.Stands settings d) (hc : d.Consists bodies wires)
    {xs : List (Step α × CableIn)} (hends : Forall₂ v.Joins xs ends)
    (hlayable : Layable (wires ++ ends)) :
    ∃ d', (xs.forM (layCable v.directory)).run d = (.ok ⟨⟩, d') ∧ v.Stands settings d' ∧
      d'.Consists bodies (wires ++ ends) := by
  induction hends generalizing d wires with
  | nil => exact ⟨d, rfl, h, by rwa [List.append_nil]⟩
  | @cons x w xs ends hw _ ih =>
    obtain ⟨d₁, hfirst, hnext⟩ := h.exists_run hc hw hlayable
    have happ : wires ++ w :: ends = wires ++ [w] ++ ends := by simp
    rw [happ] at hlayable ⊢
    obtain ⟨d₂, hrest, hall⟩ :=
      ih (h.congr fun i => (hnext.body i).trans (hc.body i).symm) hnext hlayable
    exact ⟨d₂, run_bind_eq_ok_iff.2 ⟨⟨⟩, d₁, hfirst, hrest⟩, hall⟩

/-! ## Outputs -/

theorem Output.magnet?_of_body? {o : Output α} {id : ShapeId}
    (h : d.body? id = some (o.shape settings).body) :
    ∃ n, d.magnet? ⟨id, .input, 0⟩ = some n ∧ n.datatype = o.datatype := by
  have hn := map_socket_magnet? h .input 0
  rw [Output.sockets_shape] at hn
  obtain ⟨n, hn, hsocket⟩ := Option.map_eq_some_iff.1 hn
  exact ⟨n, hn, congrArg Patchbay.Socket.datatype hsocket⟩

/-- The cables of outputs that come one after the other, from where they leave. -/
def outputWires (start : Nat) (sources : List Terminal) : List (Terminal × Terminal) :=
  (sources.zipIdx start).map fun x => (x.1, ⟨⟨x.2⟩, .input, 0⟩)

/-- An output that has been made has the cable that the description asks for. -/
theorem Stands.yields_of_run (h : v.Stands settings d) (hc : d.Consists bodies wires)
    {o : Output α} (hrun : (addOutput settings v.directory o).run d = (.ok ⟨⟩, d')) :
    ∃ s, v.Yields o s ∧ v.Stands settings d' ∧
      d'.Consists (bodies ++ [(o.shape settings).body])
        (wires ++ [(s, ⟨⟨bodies.length⟩, .input, 0⟩)]) := by
  obtain ⟨s, hs, c, hconnect⟩ := run_addOutput_eq_ok_iff.1 hrun
  obtain ⟨type, hsource⟩ := h.sourceMagnet_eq_ok_iff.1 hs
  have hadd := hc.addShape (o.conforms_shape settings)
  have hstands := h.grow (grows_addShape d (a := o.shape settings) rfl)
  rw [hc.nextShape] at hconnect
  obtain ⟨hnext, hland⟩ := hadd.of_run_connect hconnect
  obtain ⟨m, n, hm, hn, -, haccepts⟩ := hland.accepts
  obtain ⟨m', hm', rfl⟩ := hstands.source_magnet? hsource
  obtain ⟨n', hn', hdatatype⟩ := Output.magnet?_of_body?
    (hc.body?_addShape_length (o.conforms_shape settings))
  cases hm.symm.trans hm'
  cases hn.symm.trans hn'
  refine ⟨s, ⟨_, hsource, hdatatype ▸ Magnet.accepts_iff.1 haccepts⟩, ?_, hnext⟩
  exact hstands.congr fun i => (hnext.body i).trans (hadd.body i).symm

/-- An output can be made if the description asks for a cable that fits. -/
theorem Stands.exists_run_output (h : v.Stands settings d) (hc : d.Consists bodies wires)
    {o : Output α} {s : Terminal} (hs : v.Yields o s) :
    ∃ d', (addOutput settings v.directory o).run d = (.ok ⟨⟩, d') := by
  obtain ⟨type, hsource, hfits⟩ := hs
  have hadd := hc.addShape (o.conforms_shape settings)
  have hstands := h.grow (grows_addShape d (a := o.shape settings) rfl)
  have hbody := hc.body?_addShape_length (o.conforms_shape settings)
  obtain ⟨m, hm, rfl⟩ := hstands.source_magnet? hsource
  obtain ⟨n, hn, hdatatype⟩ := Output.magnet?_of_body? hbody
  have haccepts : m.accepts n := Magnet.accepts_iff.2 (hdatatype ▸ hfits)
  have hold := fun w hw => hc.shape_ne (w := w) hw
  have hsourceOld : s.shape ≠ ⟨bodies.length⟩ := by
    intro heq
    obtain ⟨m', hm', -⟩ := h.source_magnet? hsource
    have hlive := isSome_body?_of_magnet? hm'
    rw [heq, hc.body, List.getElem?_length] at hlive
    cases hlive
  have hfault : Edit.joinFault? (d.addShape (o.shape settings)) s ⟨⟨bodies.length⟩, .input, 0⟩ =
      none := by
    refine hadd.joinFault?_eq_none hsource.side_eq rfl hm hn haccepts
      (fun w hw heq => (hold w hw).2 (congrArg Terminal.shape heq)) fun hback => ?_
    rcases hback.cases_head with heq | ⟨x, hx, -⟩
    · exact hsourceOld heq.symm
    · obtain ⟨w, hw, hstart, -⟩ := hadd.leads_iff.1 hx
      exact (hold w hw).1 hstart
  have hconnect := (hadd.connect hfault).1
  rw [← hc.nextShape] at hconnect
  exact ⟨_, run_addOutput_eq_ok_iff.2 ⟨s, h.sourceMagnet_eq_ok_iff.2 ⟨_, hsource⟩, _, hconnect⟩⟩

/-- Outputs that have all been made have the cables that the description asks for. -/
theorem Stands.exists_sources_of_run (h : v.Stands settings d) (hc : d.Consists bodies wires)
    {os : List (Output α)}
    (hrun : (os.forM (addOutput settings v.directory)).run d = (.ok ⟨⟩, d')) :
    ∃ sources, Forall₂ v.Yields os sources ∧ v.Stands settings d' ∧
      d'.Consists (bodies ++ os.map fun o => (o.shape settings).body)
        (wires ++ outputWires bodies.length sources) := by
  induction os generalizing d bodies wires with
  | nil =>
    cases hrun
    exact ⟨[], .nil, h, by simpa [outputWires] using hc⟩
  | cons o os ih =>
    obtain ⟨⟨⟩, d₁, hfirst, hrest⟩ := run_bind_eq_ok_iff.1 hrun
    obtain ⟨s, hs, hstands, hnext⟩ := h.yields_of_run hc hfirst
    obtain ⟨sources, hsources, hstands', hall⟩ := ih hstands hnext hrest
    refine ⟨s :: sources, .cons hs hsources, hstands', ?_⟩
    simpa [outputWires, List.append_assoc] using hall

/-- Outputs can all be made if the description asks for cables that fit. -/
theorem Stands.exists_run_outputs (h : v.Stands settings d) (hc : d.Consists bodies wires)
    {os : List (Output α)} (hos : ∀ o ∈ os, ∃ s, v.Yields o s) :
    ∃ d', (os.forM (addOutput settings v.directory)).run d = (.ok ⟨⟩, d') := by
  induction os generalizing d bodies wires with
  | nil => exact ⟨d, rfl⟩
  | cons o os ih =>
    obtain ⟨s, hs⟩ := hos o List.mem_cons_self
    obtain ⟨d₁, hfirst⟩ := h.exists_run_output hc hs
    obtain ⟨_, -, hstands, hnext⟩ := h.yields_of_run hc hfirst
    obtain ⟨d₂, hrest⟩ := ih hstands hnext fun o' ho' => hos o' (List.mem_cons_of_mem o ho')
    exact ⟨d₂, run_bind_eq_ok_iff.2 ⟨⟨⟩, d₁, hfirst, hrest⟩⟩

end Key

end Description

end Patchbay
