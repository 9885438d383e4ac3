import Patchbay.Proofs.Canvas.Histories

/-!
# Letting go of a loose cable

A loose cable that is let go ends up in one of three ways. It lands on a magnet that has no cable
yet and that it suits, or it gets an output of its own, or it is removed. `Dropped` says what each of
these ways means for the diagram before and after: nothing else comes or goes.

Two things could get in the way of an output of its own. Its label could be taken, but among one
more labels than there are shapes some label is unused (`unused_freeOutputLabel`). And the cable
could be refused there, but the output has no other cable, the datatype is copied from the magnet
that the cable starts at, and no cable leaves an output (`joinFault?_outputAt`). So letting go of a
loose cable is never refused (`dropped_of_reachable`).
-/

namespace Patchbay

/-! ## Labels of outputs -/

namespace Canvas

theorem outputLabel_injective : Function.Injective outputLabel := by
  intro m n h
  have hrepr : m.repr = n.repr := by
    simpa [outputLabel, String.append_right_inj] using h
  exact Nat.repr_injective hrepr

end Canvas

namespace Diagram

variable {α : Type} {d : Diagram α} {label : String}

def Unused (d : Diagram α) (label : String) : Prop :=
  ∀ i s, d.shape? i = some s → s.label ≠ label

theorem unused_iff_not_any (h : d.ShapesListed []) :
    d.Unused label ↔ (!d.shapes.any fun (_, s) => s.label = label) = true := by
  simp only [Unused, Bool.not_eq_true', List.any_eq_false, h.mem_shapes_iff, Prod.forall,
    decide_eq_true_eq, ne_eq]

/-- Among one more labels than there are shapes, some label is unused. -/
theorem exists_unused_outputLabel (h : d.ShapesListed []) :
    ∃ label ∈ (List.range' 1 (d.size + 1)).map Canvas.outputLabel, d.Unused label := by
  by_contra hall
  have htaken : (List.range' 1 (d.size + 1)).map Canvas.outputLabel ⊆ d.shapes.map (·.2.label) := by
    intro label hlabel
    by_contra hfree
    refine hall ⟨label, hlabel, fun i s hs hlab => hfree ?_⟩
    exact List.mem_map.2 ⟨(i, s), h.mem_shapes_iff.2 hs, hlab⟩
  have hnodup : ((List.range' 1 (d.size + 1)).map Canvas.outputLabel).Nodup :=
    List.Nodup.map Canvas.outputLabel_injective (List.nodup_range' 1)
  have hfew : d.shapes.length ≤ d.size := List.length_filterMap_le _ _
  have hlen := (List.subperm_of_subset hnodup htaken).length_le
  simp only [List.length_map, List.length_range'] at hlen
  omega

theorem unused_freeOutputLabel (h : d.ShapesListed []) : d.Unused (Canvas.freeOutputLabel d) := by
  obtain ⟨label, hmem, hunused⟩ := exists_unused_outputLabel h
  rw [Canvas.freeOutputLabel]
  cases hfind : List.find? _ _ with
  | none => exact absurd ((unused_iff_not_any h).1 hunused) (List.find?_eq_none.1 hfind label hmem)
  | some free =>
    have hfree := List.find?_some hfind
    exact (unused_iff_not_any h).2 hfree

end Diagram

namespace Canvas

open Diagram Running

variable {α : Type} {c : Canvas α} {d d' d'' : Diagram α} {id : CableId} {s t : Terminal}
  {o : ShapeId} {outcome : Drop}

/-! ## What becomes of a loose cable -/

/-- The shape is an output that was made for a loose cable from `s`. It is new, its label was
unused, its datatype is the one at `s`, and it has no cable but this one. -/
structure MadeFor (d : Diagram α) (id : CableId) (s : Terminal) (d' : Diagram α) (o : ShapeId) :
    Prop where
  new : d.shape? o = none
  output : ∃ m out, d.magnet? s = some m ∧ d'.shape? o = some out ∧
    out.kind = .output m.datatype ∧ d.Unused out.label ∧ out.cables = [id]
  ends : d'.ends? id = some (s, some ⟨o, .input, 0⟩)

/-- What becomes of a loose cable from `s`. -/
def Fate (d : Diagram α) (id : CableId) (s : Terminal) (d' : Diagram α) : Drop → Prop
  | .attached t => d.Landable s t ∧ d'.ends? id = some (s, some t)
  | .created o => MadeFor d id s d' o
  | .discarded => d'.cable? id = none

/-- `d'` is `d` after a loose cable from `s` was let go. No shape has come but an output for the
cable, none has gone, and all other cables are where they were. -/
structure Dropped (d : Diagram α) (id : CableId) (s : Terminal) (outcome : Drop)
    (d' : Diagram α) : Prop where
  fate : Fate d id s d' outcome
  shapes : ∀ i, outcome ≠ .created i → d'.body? i = d.body? i
  cables : ∀ k ≠ id, d'.ends? k = d.ends? k

theorem MadeFor.alike (h : MadeFor d id s d' o) (ha : Alike d' d'') : MadeFor d id s d'' o where
  new := h.new
  output := by
    obtain ⟨m, out, hm, hout, hkind, hunused, hcables⟩ := h.output
    obtain ⟨out', hout', hbody, hcables'⟩ := ha.exists_shape? hout
    have hlabel : out'.label = out.label := congrArg Shape.Body.label hbody
    exact ⟨m, out', hm, hout', (Shape.kind_eq_of_body_eq hbody).trans hkind, hlabel ▸ hunused,
      hcables'.trans hcables⟩
  ends := (ha.ends id).trans h.ends

/-- Moving shapes afterwards makes no difference. -/
theorem Dropped.alike (h : Dropped d id s outcome d') (ha : Alike d' d'') :
    Dropped d id s outcome d'' where
  fate := by
    cases outcome with
    | attached t => exact ⟨h.fate.1, (ha.ends id).trans h.fate.2⟩
    | created o => exact MadeFor.alike h.fate ha
    | discarded =>
      have hgone : d''.ends? id = none := (ha.ends id).trans (Option.map_eq_none_iff.2 h.fate)
      exact Option.map_eq_none_iff.1 hgone
  shapes i hi := (ha.body i).trans (h.shapes i hi)
  cables k hk := (ha.ends k).trans (h.cables k hk)

theorem dropped_unplug (d : Diagram α) (id : CableId) (s : Terminal) (k : Cable α) :
    Dropped d id s .discarded (d.unplug id k) where
  fate := by
    change (d.unplug id k).cable? id = none
    rw [cable?_unplug, if_pos rfl]
  shapes i _ := body?_unplug d id k i
  cables x hx := by rw [ends?_unplug, if_neg hx.symm]

variable [Scalar α]

theorem dropped_land (hid : d.ends? id = some (s, none)) (hl : d.Landable s t) :
    Dropped d id s (.attached t) (d.land id t) where
  fate := by
    refine ⟨hl, ?_⟩
    rw [ends?_land, if_pos rfl, hid, Option.map_some]
  shapes i _ := body?_land d id t i
  cables x hx := by rw [ends?_land, if_neg hx.symm]

/-! ## An output for a cable -/

/-- A cable is accepted by the output that is made for it. -/
theorem joinFault?_outputAt (h : d.Sound []) {o : Option Terminal} (hid : d.ends? id = some (s, o))
    (p : Point α) :
    Edit.joinFault? (d.addShape (outputAt d s p)) s ⟨d.nextShape, .input, 0⟩ = none := by
  obtain ⟨m, hm, -⟩ := h.source hid
  have hne : s.shape ≠ d.nextShape := by
    intro hs
    rw [magnet?_eq_none_of_body? (hs ▸ body?_eq_none_iff.2 (shape?_nextShape d))] at hm
    cases hm
  have hs : (d.addShape (outputAt d s p)).magnet? s = some m := by
    rw [magnet?_addShape, magnet?_placeShape, if_neg hne, hm]
  obtain ⟨n, hn, hdatatype, hempty⟩ : ∃ n, (d.addShape (outputAt d s p)).magnet?
      ⟨d.nextShape, .input, 0⟩ = some n ∧ n.datatype = m.datatype ∧ n.cables = [] := by
    rw [magnet?_addShape, magnet?_placeShape, if_pos rfl]
    exact ⟨_, rfl, by simp [hm, Magnet.clear], rfl⟩
  refine Edit.joinFault?_of_successors_eq_nil (h.source_side hid) rfl hs hn hempty
    (Magnet.accepts_iff.2 (.inl hdatatype.symm)) hne ?_
  rw [successors, shape?_addShape]
  rfl

theorem dropped_outputAt (h : d.Sound []) (hid : d.ends? id = some (s, none)) (p : Point α) :
    Dropped d id s (.created d.nextShape)
      ((d.addShape (outputAt d s p)).land id ⟨d.nextShape, .input, 0⟩) where
  fate :=
    { new := shape?_nextShape d
      output := by
        obtain ⟨m, hm, -⟩ := h.source hid
        have hshape : ((d.addShape (outputAt d s p)).land id ⟨d.nextShape, .input, 0⟩).shape?
            d.nextShape = some (((outputAt d s p).mapMagnets Magnet.clear).modifyMagnet .input 0
              (·.hook id)) := by
          rw [shape?_land, if_pos rfl, shape?_addShape, Option.map_some]
        refine ⟨m, _, hm, hshape, ?_, unused_freeOutputLabel h.toShapesListed, rfl⟩
        change (Kind.output _ : Kind α) = _
        rw [hm, Option.bind_some]
      ends := by rw [ends?_land, if_pos rfl, ends?_addShape, hid, Option.map_some] }
  shapes i hi := by
    have hne : i ≠ d.nextShape := fun hi' => hi (congrArg Drop.created hi'.symm)
    rw [body?_land, body?_addShape, body?_placeShape, if_neg hne]
  cables x hx := by rw [ends?_land, if_neg hx.symm, ends?_addShape]

/-! ## Letting go -/

/-- The action lets go of a loose cable from `s`, with the given outcome. -/
def DropsTo (x : Action α Drop) (c : Canvas α) (id : CableId) (s : Terminal) (outcome : Drop) :
    Prop :=
  ∃ c', x.run c = (.ok outcome, c') ∧ Dropped c.diagram id s outcome c'.diagram

theorem DropsTo.thenUpdate {x : Action α Drop} (h : DropsTo x c id s outcome) :
    DropsTo (x >>= fun outcome => modify updatePhases >>= fun _ => pure outcome) c id s
      outcome := by
  obtain ⟨c', hrun, hdropped⟩ := h
  exact ⟨c'.updatePhases, run_bind_ok hrun _, hdropped⟩

omit [Scalar α] in
/-- A loose cable takes no output along. -/
theorem dropsTo_discard (hid : c.diagram.ends? id = some (s, none)) :
    DropsTo (edit (.deleteCable id) >>= fun _ => pure .discarded) c id s .discarded := by
  obtain ⟨k, hk, -, hdest⟩ := exists_cable_of_ends? hid
  have hcut : c.diagram.cut id k = c.diagram.unplug id k := by
    rw [cut, hdest]
    rfl
  have hdelete : (Edit.deleteCable id).run c.diagram = (.ok (), c.diagram.unplug id k) := by
    rw [Edit.run_deleteCable, hk, ← hcut]
  exact ⟨_, run_bind_ok (run_edit_ok hdelete) _, dropped_unplug c.diagram id s k⟩

theorem dropsTo_landCable (h : c.diagram.Sound []) (hid : c.diagram.ends? id = some (s, none))
    (hl : c.diagram.Landable s t) : DropsTo (landCable id t) c id s (.attached t) := by
  have hattach : (Edit.attach id t).run c.diagram = (.ok (), c.diagram.land id t) := by
    rw [Edit.run_attach_of_loose hid,
      (Edit.joinFault?_eq_none_iff h.toWired).2 ⟨h.source_side hid, hl⟩]
  refine ⟨c.withDiagram (c.diagram.land id t), ?_, dropped_land hid hl⟩
  rw [landCable, run_bind_ok (run_attempt _ c), hattach]
  rfl

theorem dropsTo_landCable_of_not_landable (h : c.diagram.Sound [])
    (hid : c.diagram.ends? id = some (s, none)) (hl : ¬ c.diagram.Landable s t) :
    DropsTo (landCable id t) c id s .discarded := by
  obtain ⟨e, hattach⟩ : ∃ e, (Edit.attach id t).run c.diagram = (.error e, c.diagram) := by
    rw [Edit.run_attach_of_loose hid]
    cases hfault : Edit.joinFault? c.diagram s t with
    | none => exact absurd ((Edit.joinFault?_eq_none_iff h.toWired).1 hfault).2 hl
    | some e => exact ⟨e, rfl⟩
  obtain ⟨c', hrun, hdropped⟩ := dropsTo_discard hid
  refine ⟨c', ?_, hdropped⟩
  rw [landCable, run_bind_ok (run_attempt _ c), hattach]
  exact hrun

/-- The output that is made for a loose cable takes it. -/
theorem run_outputFor_of_loose (h : c.diagram.Sound []) (hid : c.diagram.ends? id = some (s, none))
    (p : Point α) : (outputFor id s p).run c = (.ok (.created c.diagram.nextShape),
      ((c.withDiagram ((c.diagram.addShape (outputAt c.diagram s p)).land id
        ⟨c.diagram.nextShape, .input, 0⟩)).resolve c.diagram.nextShape).1.settle) := by
  have hloose : (c.diagram.addShape (outputAt c.diagram s p)).ends? id = some (s, none) := by
    rw [ends?_addShape, hid]
  have hattach : (Edit.attach id ⟨c.diagram.nextShape, .input, 0⟩).run
      (c.diagram.addShape (outputAt c.diagram s p)) = (.ok (),
        (c.diagram.addShape (outputAt c.diagram s p)).land id
          ⟨c.diagram.nextShape, .input, 0⟩) := by
    rw [Edit.run_attach_of_loose hloose, joinFault?_outputAt h hid p]
  rw [run_outputFor, hattach]

theorem dropsTo_outputFor (h : c.diagram.Sound []) (hid : c.diagram.ends? id = some (s, none))
    (p : Point α) : DropsTo (outputFor id s p) c id s (.created c.diagram.nextShape) :=
  ⟨_, run_outputFor_of_loose h hid p,
    (dropped_outputAt h hid p).alike (alike_resolve_settle (c.withDiagram _) _)⟩

theorem filter_input_eq_none {o : Option Terminal} (h : ∀ t, o = some t → t.side = .output) :
    o.filter (·.side = .input) = none := by
  refine Option.filter_eq_none_iff.2 fun t ht => ?_
  simp [h t ht]

/-- Let go of a loose cable from `s` at a point, without working the phases out again. -/
def letGo (c : Canvas α) (id : CableId) (s : Terminal) (p : Point α) : Action α Drop :=
  match (c.magnetAt? p).filter (·.side = .input) with
  | some t => landCable id t
  | none =>
    if c.zone.Contains p then outputFor id s p
    else edit (.deleteCable id) >>= fun _ => pure .discarded

theorem letGo_of_input (id : CableId) (s : Terminal) {p : Point α} (hat : c.magnetAt? p = some t)
    (ht : t.side = .input) : letGo c id s p = landCable id t := by
  rw [letGo, hat, Option.filter_some, if_pos (decide_eq_true ht)]

theorem letGo_of_zone (id : CableId) (s : Terminal) {p : Point α}
    (hat : ∀ t, c.magnetAt? p = some t → t.side = .output) (hzone : c.zone.Contains p) :
    letGo c id s p = outputFor id s p := by
  rw [letGo, filter_input_eq_none hat]
  exact if_pos hzone

theorem letGo_of_not_zone (id : CableId) (s : Terminal) {p : Point α}
    (hat : ∀ t, c.magnetAt? p = some t → t.side = .output) (hzone : ¬ c.zone.Contains p) :
    letGo c id s p = (edit (.deleteCable id) >>= fun _ => pure .discarded) := by
  rw [letGo, filter_input_eq_none hat]
  exact if_neg hzone

theorem run_dropCable (hid : c.diagram.ends? id = some (s, none)) (p : Point α) :
    (dropCable id p).run c =
      (letGo c id s p >>= fun outcome => modify updatePhases >>= fun _ => pure outcome).run c := by
  obtain ⟨k, hk, rfl, -⟩ := exists_cable_of_ends? hid
  rw [dropCable, run_bind, run_edit, Edit.run_requireCable, hk]
  have hc : c.withDiagram c.diagram = c := rfl
  dsimp only
  rw [run_get_bind, hc, letGo]
  cases (c.magnetAt? p).filter (·.side = .input) with
  | some t => rfl
  | none =>
    by_cases hzone : c.zone.Contains p
    · simp only [hzone, if_true]
    · simp only [hzone, if_false, bind_assoc]

theorem DropsTo.dropCable {p : Point α} (hid : c.diagram.ends? id = some (s, none))
    (h : DropsTo (letGo c id s p) c id s outcome) : DropsTo (dropCable id p) c id s outcome := by
  obtain ⟨c', hrun, hdropped⟩ := h.thenUpdate
  exact ⟨c', (run_dropCable hid p).trans hrun, hdropped⟩

/-- A loose cable of a reachable canvas may be let go of anywhere. It lands on a free input magnet
that it suits, or a new output with an unused label is made for it, or it is removed. Apart from
that output and that cable, all shapes and cables are there that were there, and no others. -/
theorem dropped_of_reachable (h : c.Reachable) (hid : c.diagram.ends? id = some (s, none))
    (p : Point α) :
    ∃ outcome c', (dropCable id p).run c = (.ok outcome, c') ∧
      Dropped c.diagram id s outcome c'.diagram := by
  have hs := h.inStep.sound
  suffices hgo : ∃ outcome, DropsTo (letGo c id s p) c id s outcome by
    obtain ⟨outcome, hgo⟩ := hgo
    exact ⟨outcome, hgo.dropCable hid⟩
  rw [letGo]
  split
  · rename_i t ht
    by_cases hl : c.diagram.Landable s t
    · exact ⟨_, dropsTo_landCable hs hid hl⟩
    · exact ⟨_, dropsTo_landCable_of_not_landable hs hid hl⟩
  · split
    · exact ⟨_, dropsTo_outputFor hs hid p⟩
    · exact ⟨_, dropsTo_discard hid⟩

/-- An input with a loose cable. -/
def looseCanvas : Canvas Double :=
  ofDiagram .standard (Diagram.blank.after
    [.addShape (.rawInput "r" ⟨(100 : Nat), (100 : Nat)⟩), .startCable ⟨⟨0⟩, .output, 0⟩])

def zonePoint : Point Double := ⟨(720 : Nat), (40 : Nat)⟩

theorem dropped_looseCanvas :
    (looseCanvas.Reachable ∧
      looseCanvas.diagram.ends? ⟨0⟩ = some (⟨⟨0⟩, .output, 0⟩, none)) ∧
    ∃ c', (dropCable ⟨0⟩ zonePoint).run looseCanvas = (.ok (.created ⟨1⟩), c') ∧
      Dropped looseCanvas.diagram ⟨0⟩ ⟨⟨0⟩, .output, 0⟩ (.created ⟨1⟩) c'.diagram := by
  have hreach : looseCanvas.Reachable := by
    refine ⟨.standard, _, ⟨_, ?_, rfl⟩, [], ?_, rfl⟩
    · simp [Change.Built, Shape.Built.rawInput]
    · simp
  have hid : looseCanvas.diagram.ends? ⟨0⟩ = some (⟨⟨0⟩, .output, 0⟩, none) := by decide +kernel
  have hat : looseCanvas.magnetAt? zonePoint = none := by decide +kernel
  have hzone : looseCanvas.zone.Contains zonePoint := by decide +kernel
  have hgo := letGo_of_zone ⟨0⟩ ⟨⟨0⟩, .output, 0⟩ (by simp [hat]) hzone
  have hcreated := dropsTo_outputFor hreach.inStep.sound hid zonePoint
  rw [← hgo] at hcreated
  obtain ⟨c₁, hrun₁, -⟩ := hcreated.dropCable hid
  obtain ⟨outcome, c', hrun, hdropped⟩ := dropped_of_reachable hreach hid zonePoint
  cases hrun₁.symm.trans hrun
  exact ⟨⟨hreach, hid⟩, c₁, hrun₁, hdropped⟩

end Canvas

end Patchbay
