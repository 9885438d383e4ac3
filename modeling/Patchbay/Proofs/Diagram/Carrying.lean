import Patchbay.Proofs.Diagram.Deleting

/-!
# Carrying cables over

`Midway` says that a step can be replaced: nothing stands in the way of the next cable. Here is what
has been done so far (`Progress`). A cable that has been dealt with is gone. If it could be carried
over, there is another one between the new places of its ends, and if not, the output that it led to
is gone as well. Cables that have not been dealt with are as they were, and so are shapes that none
of the cables dealt with ends at.

All this is said of the diagram at the start and of the list of pending cables, so that it does not
matter in which order the cables come. One round keeps it, whether the cable is carried over
(`Progress.reroute`) or cut (`Progress.cut`), which takes along what a cut takes along anywhere.
-/

namespace Patchbay

open Diagram Edit Relation Running

namespace Swap

variable {α : Type} [Scalar α] (w : Swap α) {d d' : Diagram α} {pending : List CableId}
  {c : CableId} {k : Cable α} {i : ShapeId}

/-! ## Cables that have been dealt with -/

/-- The cable of the old step is not pending any more. -/
def Done (pending : List CableId) (c : CableId) : Prop := c ∈ w.previous.cables ∧ c ∉ pending

/-- What has gone with cables that could not be carried over. -/
def dropped (pending : List CableId) : Set Item :=
  {y | ∃ c, w.Done pending c ∧ ¬ w.Carries c ∧ w.before.Takes (.cable c) y}

/-- What has come of the cables that have been dealt with, and what is as it was. -/
structure Progress (pending : List CableId) (d : Diagram α) : Prop where
  isOld : ∀ c ∈ pending, c ∈ w.previous.cables
  later : w.before.Later d
  kept : ∀ c, (w.before.cable? c).isSome → ¬ w.Done pending c → d.cable? c = w.before.cable? c
  gone : ∀ c, w.Done pending c → d.cable? c = none
  carried : ∀ c s t, w.Done pending c → w.before.ends? c = some (s, some t) → w.Fits s → w.Fits t →
    ∃ c', d.ends? c' = some (w.moved s, some (w.moved t))
  added : ∀ c' e, w.before.cable? c' = none → d.ends? c' = some e → ∃ c s t, w.Done pending c ∧
    w.before.ends? c = some (s, some t) ∧ w.Fits s ∧ w.Fits t ∧ e = (w.moved s, some (w.moved t))
  body : ∀ i, d.body? i =
    if stays (w.dropped pending) (.shape i) then w.placed.body? i else none
  place : ∀ i, d.place? i =
    if stays (w.dropped pending) (.shape i) then w.placed.place? i else none
  rest : ∀ i, i ≠ w.new → (∀ c u, w.Done pending c → w.before.Touches c u → u.shape ≠ i) →
    d.shape? i = w.before.shape? i
  order : d.order = w.before.order.filter fun i => stays (w.dropped pending) (.shape i)

theorem progress_placed : w.Progress w.previous.cables w.placed := by
  have hdone : ∀ c, ¬ w.Done w.previous.cables c := fun c hc => hc.2 hc.1
  have hstays : ∀ x, stays (w.dropped w.previous.cables) x = true := fun x => by
    rw [stays_iff]
    rintro ⟨c, hc, -⟩
    exact hdone c hc
  refine ⟨fun _ => id, later_placeShape _ _, fun _ _ _ => rfl, fun c hc => absurd hc (hdone c),
    fun c _ _ hc => absurd hc (hdone c), fun c' e hnone hends => ?_, fun i => ?_, fun i => ?_,
    fun i hi _ => ?_, ?_⟩
  · have hlive := isSome_ends? w.before c'
    rw [← w.ends?_placed, hends, hnone] at hlive
    cases hlive
  · rw [if_pos (hstays _)]
  · rw [if_pos (hstays _)]
  · exact (shape?_placeShape _ _ i).trans (if_neg hi)
  · exact (List.filter_eq_self.2 fun i _ => hstays _).symm

variable {w}

theorem isSome_cable? (hc : c ∈ w.previous.cables) : (w.before.cable? c).isSome := by
  obtain ⟨u, -, s, o, hends, -⟩ := w.sound.toLinked.touches_of_mem_cables w.found hc
  rw [← isSome_ends?, hends]
  rfl

theorem moved_shape {t : Terminal} (h : t.shape ≠ i) (hi : i ≠ w.new) :
    (w.moved t).shape ≠ i := by
  rw [moved, Terminal.redirect_shape]
  split
  · exact hi.symm
  · exact h

/-- A pending cable ends where it ended at the start. -/
theorem Midway.touches_iff (h : w.Midway (c :: pending) d) {u : Terminal} :
    d.Touches c u ↔ w.before.Touches c u := by
  simp only [Touches, (h.untouched c List.mem_cons_self).2]

section Round

variable (h : w.Midway (c :: pending) d) (hp : w.Progress (c :: pending) d)

include h hp

theorem Progress.done_iff {x : CableId} :
    w.Done pending x ↔ w.Done (c :: pending) x ∨ x = c := by
  have hc := hp.isOld c List.mem_cons_self
  have hnot := (List.nodup_cons.1 h.nodup).1
  unfold Done
  constructor
  · rintro ⟨hx, hpending⟩
    refine Classical.or_iff_not_imp_right.2 fun hne => ⟨hx, ?_⟩
    exact List.not_mem_cons_of_ne_of_not_mem hne hpending
  · rintro (⟨hx, hpending⟩ | rfl)
    · exact ⟨hx, List.not_mem_of_not_mem_cons hpending⟩
    · exact ⟨hc, hnot⟩

theorem Progress.dropped_of_carries (hc : w.Carries c) :
    w.dropped pending = w.dropped (c :: pending) := by
  ext y
  refine exists_congr fun x => ?_
  rw [hp.done_iff h]
  constructor
  · rintro ⟨hx | rfl, hnot, htakes⟩
    · exact ⟨hx, hnot, htakes⟩
    · exact absurd hc hnot
  · rintro ⟨hx, hrest⟩
    exact ⟨.inl hx, hrest⟩

theorem Progress.mem_dropped_iff (hc : ¬ w.Carries c) {y : Item} :
    y ∈ w.dropped pending ↔ y ∈ w.dropped (c :: pending) ∨ w.before.Takes (.cable c) y := by
  constructor
  · rintro ⟨x, hx, hnot, htakes⟩
    rcases (hp.done_iff h).1 hx with hx | rfl
    · exact .inl ⟨x, hx, hnot, htakes⟩
    · exact .inr htakes
  · rintro (⟨x, hx, hrest⟩ | htakes)
    · exact ⟨x, (hp.done_iff h).2 (.inl hx), hrest⟩
    · exact ⟨c, (hp.done_iff h).2 (.inr rfl), hc, htakes⟩

/-- A pending cable takes along what it took along at the start, unless that is gone. -/
theorem Progress.takes_iff {y : Item} : d.Takes (.cable c) y ↔
    w.before.Takes (.cable c) y ∧ y ∉ w.dropped (c :: pending) := by
  have hends := (h.untouched c List.mem_cons_self).2
  have hplaced : ∀ {s t : Terminal}, w.before.ends? c = some (s, some t) →
      w.placed.body? t.shape = w.before.body? t.shape := fun he => by
    rw [w.body?_placed, if_neg (w.ne_new (touches_dest he))]
  constructor
  · intro hy
    cases hy with
    | @output i _ s t he ht hout =>
      rw [hends] at he
      subst ht
      have hbody := hp.body t.shape
      by_cases hstays : .shape t.shape ∈ w.dropped (c :: pending)
      · rw [if_neg (mt stays_iff.1 (not_not.2 hstays)), body?_eq_none_iff] at hbody
        simp [has, hbody] at hout
      · rw [if_pos (stays_iff.2 hstays), hplaced he] at hbody
        exact ⟨.output he rfl ((has_congr bodily_isOutput hbody).symm.trans hout), hstays⟩
  · rintro ⟨hy, hstays⟩
    cases hy with
    | @output i _ s t he ht hout =>
      subst ht
      have hbody := hp.body t.shape
      rw [if_pos (stays_iff.2 hstays), hplaced he] at hbody
      exact .output (hends.trans he) rfl ((has_congr bodily_isOutput hbody).trans hout)

/-- What stays when a cable is cut that is not carried over. -/
theorem Progress.stays_dropped (hc : ¬ w.Carries c) (i : ShapeId) :
    stays (w.dropped pending) (.shape i) =
      stays (w.dropped (c :: pending) ∪ d.cascade (.cable c)) (.shape i) := by
  rw [Bool.eq_iff_iff, stays_iff, stays_iff, Set.mem_union, h.sound.shape_mem_cascade_cable,
    hp.takes_iff h, hp.mem_dropped_iff h hc]
  tauto

/-- What there is beside a pending cable is there also when that has been unplugged. -/
theorem Progress.cable?_of_kept {x : CableId} (hx : (w.before.cable? x).isSome)
    (hdone : ¬ w.Done pending x) : d.cable? x = w.before.cable? x ∧ c ≠ x := by
  rw [hp.done_iff h, not_or] at hdone
  exact ⟨hp.kept x hx hdone.1, Ne.symm hdone.2⟩

theorem Progress.cable?_of_gone {x : CableId} (hx : w.Done pending x) :
    c = x ∨ d.cable? x = none :=
  ((hp.done_iff h).1 hx).symm.imp Eq.symm (hp.gone x)

/-- The cables that have been carried over are not pending. -/
theorem Progress.ne_of_moved {x : CableId} {s t : Terminal}
    (hx : d.ends? x = some (w.moved s, some (w.moved t))) : c ≠ x := by
  rintro rfl
  have hold := hp.isOld c List.mem_cons_self
  obtain ⟨u, hu, hcu⟩ := w.sound.toLinked.touches_of_mem_cables w.found hold
  rcases (Diagram.touches_iff hx).1 (h.touches_iff.2 hcu) with rfl | ht
  · exact w.moved_shape_ne s hu
  · cases ht
    exact w.moved_shape_ne t hu

omit h hp in
/-- A cable that is there is as it was when another one has been rerouted. -/
theorem cable?_unplug_join (s t : Terminal) {x : CableId} (hne : c ≠ x)
    (hx : (d.cable? x).isSome) : ((d.unplug c k).join s t).cable? x = d.cable? x := by
  have hunplug : (d.unplug c k).cable? x = d.cable? x :=
    (cable?_unplug d c k x).trans (if_neg hne)
  refine (cable?_join_of_ne _ _ _ ?_).trans hunplug
  rintro rfl
  rw [← hunplug, cable?_nextCable] at hx
  cases hx

theorem Progress.reroute (hk : d.cable? c = some k) {s t : Terminal}
    (hends : d.ends? c = some (s, some t)) (hs : w.Fits s) (ht : w.Fits t) :
    w.Progress pending ((d.unplug c k).join (w.moved s) (w.moved t)) := by
  have hbefore := h.ends?_before List.mem_cons_self hends
  have hdropped := hp.dropped_of_carries h ⟨s, t, hbefore, hs, ht⟩
  have hlater : w.before.Later (d.unplug c k) := (stable_later w.before).unplug hp.later c k
  refine { isOld := fun x hx => hp.isOld x (List.mem_cons_of_mem c hx),
           later := (stable_later w.before).join hlater _ _, kept := ?_, gone := ?_, carried := ?_,
           added := ?_, body := fun i => ?_, place := fun i => ?_, rest := ?_, order := ?_ }
  · intro x hx hdone
    obtain ⟨hkept, hne⟩ := hp.cable?_of_kept h hx hdone
    rw [cable?_unplug_join _ _ hne (hkept ▸ hx), hkept]
  · intro x hx
    refine hlater.cable_gone ((stable_later _).join (.refl _) _ _) (isSome_cable? hx.1) ?_
    rw [cable?_unplug]
    split
    · rfl
    · exact (hp.cable?_of_gone h hx).resolve_left ‹_›
  · intro x s' t' hx hxends hs' ht'
    rcases (hp.done_iff h).1 hx with hx | rfl
    · obtain ⟨c', hc'⟩ := hp.carried x s' t' hx hxends hs' ht'
      refine ⟨c', ?_⟩
      have hlive : (d.cable? c').isSome := by rw [← isSome_ends?, hc']; rfl
      rw [ends?, cable?_unplug_join _ _ (hp.ne_of_moved h hc') hlive]
      exact hc'
    · cases hbefore.symm.trans hxends
      exact ⟨_, (ends?_join _ _ _ _).trans (if_pos rfl)⟩
  · intro c' e hnone hc'
    rw [ends?_join] at hc'
    split at hc'
    · cases hc'
      exact ⟨c, s, t, (hp.done_iff h).2 (.inr rfl), hbefore, hs, ht, rfl⟩
    · rw [ends?_unplug] at hc'
      split at hc'
      · cases hc'
      · obtain ⟨x, s', t', hx, hrest⟩ := hp.added c' e hnone hc'
        exact ⟨x, s', t', (hp.done_iff h).2 (.inl hx), hrest⟩
  · rw [body?_join, body?_unplug, hp.body, hdropped]
  · rw [place?_join, place?_unplug, hp.place, hdropped]
  · intro i hi hrest
    have hcends : ∀ u, w.before.Touches c u → u.shape ≠ i :=
      fun u => hrest c u ((hp.done_iff h).2 (.inr rfl))
    rw [shape?_join_of_ne _ (moved_shape (hcends s (touches_source hbefore)) hi)
      (moved_shape (hcends t (touches_dest hbefore)) hi), shape?_unplug_of_ne]
    · exact hp.rest i hi fun x u hx => hrest x u ((hp.done_iff h).2 (.inl hx))
    · intro u hu
      rw [Cable.mem_ends, ← Diagram.touches_iff (ends?_eq_some hk), h.touches_iff] at hu
      exact hcends u hu
  · rw [order_join, order_unplug, hp.order, hdropped]

theorem Progress.cut (hk : d.cable? c = some k) (hc : ¬ w.Carries c) :
    w.Progress pending (d.cut c k) := by
  have hloses := h.sound.loses_cut hk
  have hdropped := hp.stays_dropped h hc
  have hcable : ∀ x, c ≠ x → (d.cut c k).cable? x = d.cable? x := fun x hne => by
    rw [hloses.cable, if_pos (stays_iff.2 (mt h.sound.cable_mem_cascade_cable.1 hne))]
  refine { isOld := fun x hx => hp.isOld x (List.mem_cons_of_mem c hx),
           later := (stable_later w.before).cut hp.later c k, kept := ?_, gone := ?_, carried := ?_,
           added := ?_, body := fun i => ?_, place := fun i => ?_, rest := ?_, order := ?_ }
  · intro x hx hdone
    obtain ⟨hkept, hne⟩ := hp.cable?_of_kept h hx hdone
    rw [hcable x hne, hkept]
  · intro x hx
    rw [hloses.cable]
    split
    · rename_i hstays
      refine (hp.cable?_of_gone h hx).resolve_left fun heq => ?_
      exact stays_iff.1 hstays (h.sound.cable_mem_cascade_cable.2 heq)
    · rfl
  · intro x s t hx hxends hs ht
    rcases (hp.done_iff h).1 hx with hx | rfl
    · obtain ⟨c', hc'⟩ := hp.carried x s t hx hxends hs ht
      exact ⟨c', by rw [ends?, hcable c' (hp.ne_of_moved h hc')]; exact hc'⟩
    · exact absurd ⟨s, t, hxends, hs, ht⟩ hc
  · intro c' e hnone hc'
    obtain ⟨x, s, t, hx, hrest⟩ := hp.added c' e hnone (hloses.ends?_eq_some_iff.1 hc').1
    exact ⟨x, s, t, (hp.done_iff h).2 (.inl hx), hrest⟩
  · simp only [hloses.body?, hp.body, hdropped, stays_union, Bool.and_eq_true, ite_and]
  · simp only [hloses.place?, hp.place, hdropped, stays_union, Bool.and_eq_true, ite_and]
  · intro i hi hrest
    have hcends : ∀ u, d.Touches c u → u.shape ≠ i :=
      fun u hu => hrest c u ((hp.done_iff h).2 (.inr rfl)) (h.touches_iff.1 hu)
    have hsame := hp.rest i hi fun x u hx => hrest x u ((hp.done_iff h).2 (.inl hx))
    cases hshape : d.shape? i with
    | none =>
      rw [← hsame, hshape, hloses.shape, hshape]
      exact ite_self _
    | some s =>
      rw [← hsame, hshape]
      refine hloses.shape?_of_apart hshape ?_ fun x hx hgone => ?_
      · rw [h.sound.shape_mem_cascade_cable]
        intro htakes
        cases htakes with
        | output he ht => exact hcends _ (touches_dest he) ht
      · obtain ⟨u, hu, hxu⟩ := h.sound.toLinked.touches_of_mem_cables hshape hx
        rw [← h.sound.cable_mem_cascade_cable.1 hgone] at hxu
        exact hcends u hxu hu
  · simp only [hloses.order, hp.order, hdropped, filter_stays_union]

theorem Progress.handled (hd : w.Handled d c d') : w.Progress pending d' := by
  obtain ⟨k, hk, ⟨s, t, hends, hs, ht, rfl⟩ | ⟨hc, rfl⟩⟩ := hd
  · exact hp.reroute h hk hends hs ht
  · exact hp.cut h hk hc

end Round

end Swap

end Patchbay
