import Patchbay.Proofs.Diagram.Places
import Patchbay.Proofs.Exact

/-!
# Drawing cables

The curve of a cable is kept once it is drawn, and forgotten when an end of the cable may have
moved. A diagram is `Fresh` when no cable keeps a curve other than the one between its ends now.

A change keeps that if each cable that has a curve afterwards had it before, and none of its ends is
elsewhere now (`Fresh.of_unbent`). Most changes move nothing. Moving a shape forgets the curves of
all cables at it, which are those that its magnets list. Settling a shape moves it only if adding
zero changes a scalar, so here `a + 0 = a` is asked for.

A diagram in use is changed and drawn in any order. All that is drawn is drawn between the ends as
they are (`draw_of_uses`).
-/

namespace Patchbay

namespace Diagram

open Running

variable {α : Type} [Scalar α] {d d' : Diagram α} {c : CableId} {k : Cable α}

/-! ## Where magnets are -/

/-- A magnet is off the centre of its shape. -/
theorem magnetPosition?_eq (d : Diagram α) (t : Terminal) :
    d.magnetPosition? t = (d.magnet? t).bind fun m => (d.centre? t.shape).map (· + m.offset) := by
  rw [magnetPosition?, magnet?_eq, centre?]
  cases d.shape? t.shape with
  | none => rfl
  | some s => cases h : (s.magnets t.side)[t.index]? <;> simp [h, Shape.magnetPosition]

/-- Nothing is where it was not before. -/
def Still (d d' : Diagram α) (t : Terminal) : Prop :=
  ∀ p, d'.magnetPosition? t = some p → d.magnetPosition? t = some p

/-- Magnets stay where they are on a shape that stays as it is but for its cables, if its centre
stays where it is. -/
theorem still_of_body? {t : Terminal} (hb : d'.body? t.shape = d.body? t.shape)
    (hc : d'.centre? t.shape = d.centre? t.shape) : d.Still d' t := by
  intro p hp
  rw [magnetPosition?_eq] at hp
  obtain ⟨m', hm', hp⟩ := Option.bind_eq_some_iff.1 hp
  obtain ⟨m, hm, hclear⟩ := exists_magnet_congr hb.symm hm'
  have hoffset : m.offset = m'.offset := congrArg (·.offset) hclear
  rw [magnetPosition?_eq, hm, Option.bind_some, hoffset, ← hc, hp]

theorem still_of_shape? {t : Terminal} (h : ∀ s, d'.shape? t.shape = some s →
    d.shape? t.shape = some s) : d.Still d' t := by
  intro p hp
  obtain ⟨s, hs, hp⟩ := Option.bind_eq_some_iff.1 hp
  rw [magnetPosition?, h s hs]
  exact hp

/-! ## Curves -/

/-- Where a cable ends: at the magnet that it has landed on, or where its loose end is. -/
def endPosition? (d : Diagram α) (k : Cable α) : Option (Point α) :=
  match k.dest with
  | some t => d.magnetPosition? t
  | none => some k.freeEnd

theorem currentCurve?_eq (d : Diagram α) (k : Cable α) : d.currentCurve? k =
    (d.magnetPosition? k.source).bind fun p => (d.endPosition? k).map (Cable.curveBetween p) := by
  rw [currentCurve?, endPosition?]
  cases d.magnetPosition? k.source with
  | none => rfl
  | some p =>
    cases k.dest with
    | none => rfl
    | some t => cases h : d.magnetPosition? t <;> simp [h]

/-- The curve between two ends that have not moved is as it was. -/
theorem currentCurve?_of_still (h : ∀ t ∈ k.ends, d.Still d' t) {curve : Curve α}
    (hcurve : d'.currentCurve? k = some curve) : d.currentCurve? k = some curve := by
  rw [currentCurve?_eq] at hcurve ⊢
  obtain ⟨p, hp, hcurve⟩ := Option.bind_eq_some_iff.1 hcurve
  obtain ⟨q, hq, rfl⟩ := Option.map_eq_some_iff.1 hcurve
  rw [h _ (Cable.mem_ends.2 (.inl rfl)) p hp, Option.bind_some, Option.map_eq_some_iff]
  refine ⟨q, ?_, rfl⟩
  cases hdest : k.dest with
  | none => simpa [endPosition?, hdest] using hq
  | some t =>
    simp only [endPosition?, hdest] at hq ⊢
    exact h t (Cable.mem_ends.2 (.inr hdest)) q hq

/-- In a sound diagram both ends of a cable are somewhere. -/
theorem Linked.exists_positions (h : d.Linked) (hk : d.cable? c = some k) :
    ∃ p q, d.magnetPosition? k.source = some p ∧ d.endPosition? k = some q := by
  have hends := ends?_eq_some hk
  obtain ⟨m, hm⟩ := Option.isSome_iff_exists.1 (h.end_magnet (touches_source hends))
  obtain ⟨p, hp⟩ := exists_magnetPosition? hm
  cases hdest : k.dest with
  | none => exact ⟨p, k.freeEnd, hp, by simp only [endPosition?, hdest]⟩
  | some t =>
    rw [hdest] at hends
    obtain ⟨n, hn⟩ := Option.isSome_iff_exists.1 (h.end_magnet (touches_dest hends))
    obtain ⟨q, hq⟩ := exists_magnetPosition? hn
    exact ⟨p, q, hp, by simp only [endPosition?, hdest, hq]⟩

/-! ## Curves that are kept -/

/-- A cable that keeps a curve keeps the one between its ends now. -/
def Fresh (d : Diagram α) : Prop := ∀ c k curve, d.cable? c = some k → k.drawn = some curve →
  ∀ now, d.currentCurve? k = some now → curve = now

/-- A cable that has a curve in `d'` is as it was in `d`, and none of its ends is elsewhere. -/
def Unbent (d d' : Diagram α) : Prop := ∀ c k curve, d'.cable? c = some k → k.drawn = some curve →
  d.cable? c = some k ∧ ∀ t ∈ k.ends, d.Still d' t

theorem Fresh.of_unbent (h : d.Fresh) (hd : d.Unbent d') : d'.Fresh := by
  intro c k curve hk hdrawn now hnow
  obtain ⟨hold, hstill⟩ := hd c k curve hk hdrawn
  exact h c k curve hold hdrawn now (currentCurve?_of_still hstill hnow)

theorem fresh_blank : (blank : Diagram α).Fresh := by
  intro c k curve hk
  simp [cable?, blank] at hk

theorem unbent_of_cable? (hc : ∀ c k curve, d'.cable? c = some k → k.drawn = some curve →
    d.cable? c = some k) (ht : ∀ t, d.Still d' t) : d.Unbent d' :=
  fun c k curve hk hdrawn => ⟨hc c k curve hk hdrawn, fun t _ => ht t⟩

/-! ## Changes that move nothing -/

theorem unbent_unplug (d : Diagram α) (id : CableId) (k : Cable α) : d.Unbent (d.unplug id k) := by
  refine unbent_of_cable? (fun c x curve hx _ => ?_) fun t => ?_
  · rw [cable?_unplug] at hx
    split at hx
    · cases hx
    · exact hx
  · exact still_of_body? (body?_unplug d id k _) (centre?_congr (place?_unplug d id k _))

theorem unbent_removeShape (d : Diagram α) (id : ShapeId) : d.Unbent (d.removeShape id) := by
  refine unbent_of_cable? (fun c k curve hk _ => ?_) fun t => still_of_shape? fun s hs => ?_
  · rwa [cable?, cableSlots_removeShape] at hk
  · rw [shape?_removeShape] at hs
    split at hs
    · cases hs
    · exact hs

theorem unbent_start (d : Diagram α) (s : Terminal) (p : Point α) : d.Unbent (d.start s p) := by
  refine unbent_of_cable? (fun c k curve hk hdrawn => ?_) fun t => ?_
  · change (d.addCable (.make s none p)).cable? c = some k at hk
    rw [cable?_addCable] at hk
    split at hk
    · cases hk
      cases hdrawn
    · exact hk
  · exact still_of_body? (body?_start d s p _) (centre?_congr (place?_start d s p _))

omit [Scalar α] in
/-- A cable whose curve is forgotten may be changed at will. -/
theorem cable?_of_forgetful (id : CableId) {f : Cable α → Cable α}
    (hf : ∀ k, (f k).drawn = none) {curve : Curve α} (hk : (d.modifyCable id f).cable? c = some k)
    (hdrawn : k.drawn = some curve) : d.cable? c = some k ∧ id ≠ c := by
  rw [cable?_modifyCable] at hk
  split at hk
  · obtain ⟨k', -, rfl⟩ := Option.map_eq_some_iff.1 hk
    rw [hf] at hdrawn
    cases hdrawn
  · exact ⟨hk, ‹_›⟩

theorem unbent_modifyCable (d : Diagram α) (id : CableId) {f : Cable α → Cable α}
    (hf : ∀ k, (f k).drawn = none) : d.Unbent (d.modifyCable id f) :=
  unbent_of_cable? (fun _ _ _ hk hdrawn => (cable?_of_forgetful id hf hk hdrawn).1)
    fun _ _ hp => hp

theorem unbent_land (d : Diagram α) (id : CableId) (t : Terminal) : d.Unbent (d.land id t) := by
  refine unbent_of_cable? (fun c k curve hk hdrawn => ?_) fun u => ?_
  · exact (cable?_of_forgetful (d := d) id (fun _ => rfl) hk hdrawn).1
  · exact still_of_body? (body?_land d id t _) (centre?_congr (place?_land d id t _))

theorem stable_fresh : Stable (Fresh (α := α)) where
  unplug h id k := h.of_unbent (unbent_unplug _ id k)
  removeShape h id := h.of_unbent (unbent_removeShape _ id)
  start h s p := h.of_unbent (unbent_start _ s p)
  land h id t := h.of_unbent (unbent_land _ id t)
  moveEnd h id p := h.of_unbent (unbent_modifyCable _ id fun _ => rfl)
  relist h id _ _ := by
    refine h.of_unbent (unbent_of_cable? (fun _ _ _ hk _ => hk) fun t => ?_)
    refine still_of_shape? fun s hs => ?_
    simp only [shape?, Arena.get?_remove] at hs ⊢
    split at hs
    · cases hs
    · exact hs

/-- No cable ends at a shape that is not there yet. -/
theorem Fresh.placeShape (h : d.Fresh) (hl : d.Linked) (s : Shape α) : (d.placeShape s).Fresh := by
  refine h.of_unbent fun c k curve hk _ => ⟨hk, fun t ht => still_of_shape? fun s' hs' => ?_⟩
  have htouches : d.Touches c t := (touches_iff (ends?_eq_some hk)).2 (Cable.mem_ends.1 ht)
  have hlive := hl.live htouches
  rwa [shape?_placeShape, if_neg] at hs'
  intro hnext
  rw [hnext, isSome_body?, shape?_nextShape] at hlive
  cases hlive

theorem Fresh.addShape (h : d.Fresh) (hl : d.Linked) (s : Shape α) : (d.addShape s).Fresh := by
  refine (h.placeShape hl s).of_unbent (unbent_of_cable? (fun c k curve hk _ => ?_) fun t => ?_)
  · simpa [cable?, Diagram.addShape] using hk
  · exact still_of_shape? fun s' hs' => by rwa [shape?, shapeSlots_addShape] at hs'

/-! ## Changes that move shapes -/

omit [Scalar α] in
theorem cable?_foldl_forgetCurve {curve : Curve α} {cs : List CableId}
    (hk : (cs.foldl (fun d c => d.modifyCable c Cable.forgetCurve) d).cable? c = some k)
    (hdrawn : k.drawn = some curve) : d.cable? c = some k ∧ c ∉ cs := by
  induction cs generalizing d with
  | nil => exact ⟨hk, List.not_mem_nil⟩
  | cons x cs ih =>
    obtain ⟨hk, hrest⟩ := ih hk
    obtain ⟨hk, hne⟩ := cable?_of_forgetful x (fun _ => rfl) hk hdrawn
    exact ⟨hk, List.not_mem_cons_of_ne_of_not_mem hne.symm hrest⟩

omit [Scalar α] in
/-- A cable that keeps its curve is not at the shape. -/
theorem cable?_forgetCurves {id : ShapeId} {curve : Curve α}
    (hk : (d.forgetCurves id).cable? c = some k) (hdrawn : k.drawn = some curve) :
    d.cable? c = some k ∧ ∀ s, d.shape? id = some s → c ∉ s.cables := by
  unfold forgetCurves at hk
  split at hk
  · rename_i hnone
    refine ⟨hk, fun s hs => ?_⟩
    rw [hnone] at hs
    cases hs
  · rename_i s hs
    obtain ⟨hk, hc⟩ := cable?_foldl_forgetCurve hk hdrawn
    refine ⟨hk, fun s' hs' => ?_⟩
    rw [hs] at hs'
    cases hs'
    exact hc

/-- A shape may be moved when the curves of its cables are forgotten. -/
theorem Fresh.moveShape (h : d.Fresh) (hl : d.Linked) (id : ShapeId) {f : Shape α → Shape α}
    (hf : ∀ s, (f s).cables = s.cables) : ((d.modifyShape id f).forgetCurves id).Fresh := by
  refine h.of_unbent fun c k curve hk hdrawn => ?_
  obtain ⟨hk, hforgotten⟩ := cable?_forgetCurves hk hdrawn
  refine ⟨hk, fun t ht => still_of_shape? fun s hs => ?_⟩
  have htouches : d.Touches c t := (touches_iff (ends?_eq_some hk)).2 (Cable.mem_ends.1 ht)
  have hne : id ≠ t.shape := by
    rintro rfl
    have hlive := hl.live htouches
    rw [isSome_body?] at hlive
    obtain ⟨old, hold⟩ := Option.isSome_iff_exists.1 hlive
    refine hforgotten (f old) ?_ ?_
    · rw [shape?_modifyShape, if_pos rfl, hold, Option.map_some]
    · rw [hf]
      exact hl.onlyPending_cables hold c t htouches rfl
  rwa [shape?_forgetCurves, shape?_modifyShape, if_neg hne] at hs

/-- Settling moves nothing if adding zero does not. -/
theorem Fresh.settle (h : d.Fresh) (hzero : ∀ a : α, a + 0 = a) : d.settle.Fresh := by
  refine h.of_unbent (unbent_of_cable? (fun _ _ _ hk _ => hk) fun t => ?_)
  refine still_of_body? ((alike_settle d).body _) ?_
  have horigin : ∀ p : Point α, p + Point.origin = p := fun p =>
    congr (congrArg Point.mk (hzero p.x)) (hzero p.y)
  rw [centre?_eq, centre?_eq, place?_settle, Option.map_map]
  exact congrArg (Option.map · _) (funext fun x => horigin _)

/-! ## Drawing -/

theorem run_draw (id : CableId) (d : Diagram α) : (draw id).run d =
    match d.cable? id with
      | none => (none, d)
      | some k => match k.drawn with
        | some curve => (some curve, d)
        | none => match d.currentCurve? k with
          | none => (none, d)
          | some curve => (some curve, d.modifyCable id ({ · with drawn := some curve })) := by
  change StateT.run (match d.cable? id with | none => _ | some k => _) d = _
  cases d.cable? id with
  | none => rfl
  | some k =>
    dsimp only
    cases k.drawn with
    | some curve => rfl
    | none => cases d.currentCurve? k <;> rfl

theorem alike_draw (id : CableId) (d : Diagram α) : Alike d ((draw id).run d).2 := by
  rw [run_draw]
  split
  · exact .refl d
  · split
    · exact .refl d
    · split
      · exact .refl d
      · exact alike_modifyCable d id fun _ => ⟨rfl, rfl⟩

theorem Fresh.draw (h : d.Fresh) (id : CableId) : ((Diagram.draw id).run d).2.Fresh := by
  rw [run_draw]
  split
  · exact h
  · rename_i k hk
    split
    · exact h
    · split
      · exact h
      · rename_i curve hcurve
        intro c k' curve' hk' hdrawn' now hnow
        rw [cable?_modifyCable] at hk'
        split at hk'
        · rename_i heq
          rw [← heq, hk] at hk'
          cases hk'
          cases hdrawn'
          exact Option.some.inj (hcurve.symm.trans hnow)
        · exact h c k' curve' hk' hdrawn' now hnow

/-- What is drawn is the curve between the ends of the cable as they are. -/
theorem Fresh.run_draw (h : d.Fresh) (hl : d.Linked) (hk : d.cable? c = some k) :
    ∃ p q, d.magnetPosition? k.source = some p ∧ d.endPosition? k = some q ∧
      ((Diagram.draw c).run d).1 = some (Cable.curveBetween p q) := by
  obtain ⟨p, q, hp, hq⟩ := hl.exists_positions hk
  have hnow : d.currentCurve? k = some (Cable.curveBetween p q) := by
    rw [currentCurve?_eq, hp, hq]
    rfl
  refine ⟨p, q, hp, hq, ?_⟩
  rw [Diagram.run_draw, hk]
  cases hdrawn : k.drawn with
  | none => simp only [hdrawn, hnow]
  | some curve =>
    simp only [hdrawn]
    rw [h c k curve hk hdrawn _ hnow]

/-! ## Diagrams in use -/

/-- What is done with a diagram: it is changed, or a cable is drawn. -/
inductive Use (α : Type)
  | change (c : Change α)
  | draw (id : CableId)

/-- A shape that comes with the use is as it was built. -/
def Use.Built : Use α → Prop
  | .change c => c.Built
  | .draw _ => True

def afterUse (d : Diagram α) : Use α → Diagram α
  | .change c => (d.run c).2
  | .draw id => ((Diagram.draw id).run d).2

def afterUses (d : Diagram α) (uses : List (Use α)) : Diagram α := uses.foldl afterUse d

theorem Sound.afterUse (h : d.Sound []) {u : Use α} (hu : u.Built) : (d.afterUse u).Sound [] := by
  cases u with
  | change c => exact h.run hu
  | draw id => exact h.alike (alike_draw id d)

theorem Fresh.afterUse (h : d.Fresh) (hd : d.Sound []) (hzero : ∀ a : α, a + 0 = a) (u : Use α) :
    (d.afterUse u).Fresh := by
  cases u with
  | change c =>
    exact stable_fresh.run h (fun s _ => h.addShape hd.toLinked s)
      (fun id p => h.moveShape hd.toLinked id fun _ => rfl)
      (fun id p => h.moveShape hd.toLinked id fun _ => rfl) (h.settle hzero)
      fun _ _ _ _ _ => h.placeShape hd.toLinked _
  | draw id => exact h.draw id

/-- However a diagram has been used, what is drawn of a cable that is there is the curve between its
ends as they are now. -/
theorem draw_of_uses (hzero : ∀ a : α, a + 0 = a) {uses : List (Use α)}
    (huses : ∀ u ∈ uses, u.Built) (hk : (blank.afterUses uses).cable? c = some k) :
    ∃ p q, (blank.afterUses uses).magnetPosition? k.source = some p ∧
      (blank.afterUses uses).endPosition? k = some q ∧
      ((Diagram.draw c).run (blank.afterUses uses)).1 = some (Cable.curveBetween p q) := by
  suffices hafter : ∀ (uses : List (Use α)) (d : Diagram α), (∀ u ∈ uses, u.Built) → d.Sound [] →
      d.Fresh → (d.afterUses uses).Sound [] ∧ (d.afterUses uses).Fresh by
    obtain ⟨hsound, hfresh⟩ := hafter uses blank huses sound_blank fresh_blank
    exact hfresh.run_draw hsound.toLinked hk
  intro uses
  induction uses with
  | nil => exact fun d _ hd hfresh => ⟨hd, hfresh⟩
  | cons u us ih =>
    intro d hu hd hfresh
    exact ih _ (fun u' hu' => hu u' (List.mem_cons_of_mem u hu'))
      (hd.afterUse (hu u List.mem_cons_self)) (hfresh.afterUse hd hzero u)

/-- A cable is drawn, moved at both ends, drawn after each move, and kept when all is settled. -/
noncomputable def drawnAndMoved : List (Use ℝ) :=
  [.change (.addShape (.step "f" [] [⟨"y", none⟩] Point.origin)),
   .change (.startCable ⟨⟨0⟩, .output, 0⟩), .draw ⟨0⟩,
   .change (.moveEnd ⟨0⟩ ⟨100, 50⟩), .draw ⟨0⟩,
   .change (.shiftBy ⟨0⟩ ⟨10, 10⟩), .draw ⟨0⟩, .change .settle]

theorem draw_drawnAndMoved :
    ((∀ a : ℝ, a + 0 = a) ∧ (∀ u ∈ drawnAndMoved, u.Built) ∧
      ((blank.afterUses drawnAndMoved).cable? ⟨0⟩).any (·.drawn.isSome)) ∧
    ∃ p, (blank.afterUses drawnAndMoved).magnetPosition? ⟨⟨0⟩, .output, 0⟩ = some p ∧
      ((Diagram.draw ⟨0⟩).run (blank.afterUses drawnAndMoved)).1 =
        some (Cable.curveBetween p ⟨100, 50⟩) := by
  have hbuilt : ∀ u ∈ drawnAndMoved, u.Built := by
    simp [drawnAndMoved, Use.Built, Change.Built, Shape.Built.step]
  refine ⟨⟨add_zero, hbuilt, rfl⟩, ?_⟩
  have hcable : ∃ k, (blank.afterUses drawnAndMoved).cable? ⟨0⟩ = some k ∧
      k.source = ⟨⟨0⟩, .output, 0⟩ ∧ k.dest = none ∧ k.freeEnd = ⟨100, 50⟩ :=
    ⟨_, rfl, rfl, rfl, rfl⟩
  obtain ⟨k, hk, hsource, hdest, hend⟩ := hcable
  obtain ⟨p, q, hp, hq, hdraw⟩ := draw_of_uses add_zero hbuilt hk
  simp only [endPosition?, hdest, hend, Option.some.injEq] at hq
  subst hq
  exact ⟨p, hsource ▸ hp, hdraw⟩

end Diagram

end Patchbay
