import Patchbay.Proofs.Diagram.Carrying
import Patchbay.Proofs.Diagram.Without

/-!
# What is left after replacing a step

A cable of the old step is carried over if it is attached and the new step has a magnet for its end,
at the same index of the same side and of the same datatype (`carries`). `d.Replaced old next new
d'` spells out what becomes of a diagram when `next` takes the place of `old` under the name `new`:
for each cable that is carried over there is one between the new places of its ends, the new step
has no others, the other cables of the old step are gone with the outputs that they led to, and all
else is as it was.

`replaced_of_reachable` says that replacing a step of a reachable diagram leaves exactly this.
-/

namespace Patchbay

open Diagram Edit Relation

variable {α : Type}

/-- A cable between the new places of the ends of one at the old shape ends at the new shape. -/
theorem Cable.endsAt_redirect {k k' : Cable α} {old new : ShapeId} (h : k.endsAt old = true)
    (hsource : k'.source = k.source.redirect old new)
    (hdest : k'.dest = k.dest.map (·.redirect old new)) : k'.endsAt new = true := by
  have hends : k'.ends = k.ends.map (·.redirect old new) := by
    rw [Cable.ends, Cable.ends, hsource, hdest, Option.toList_map, List.map_cons]
  obtain ⟨t, ht, hold⟩ := List.any_eq_true.1 h
  refine List.any_eq_true.2 ⟨t.redirect old new, hends ▸ List.mem_map_of_mem ht, ?_⟩
  rw [Terminal.redirect_of_eq (of_decide_eq_true hold)]
  exact decide_eq_true rfl

namespace Diagram

/-- The place is not on the old step, or the next one has a magnet of the same datatype there. -/
def fits (d : Diagram α) (old : ShapeId) (next : Shape α) (t : Terminal) : Bool :=
  t.shape ≠ old || (d.magnet? t).any fun m =>
    ((next.magnets t.side)[t.index]?).any (·.datatype = m.datatype)

/-- The cable is attached, and each of its ends that is on the old step fits on the next one. -/
def carries (d : Diagram α) (old : ShapeId) (next : Shape α) (c : CableId) : Bool :=
  (d.cable? c).any fun k => k.isAttached && k.ends.all (d.fits old next)

/-- A cable of the old step that is not carried over. -/
def abandons (d : Diagram α) (old : ShapeId) (next : Shape α) (c : CableId) : Bool :=
  d.cableEndsAt old c && !d.carries old next c

/-- An output whose cable is not carried over. -/
def forsakes (d : Diagram α) (old : ShapeId) (next : Shape α) : ShapeId → Bool :=
  d.outputWith (d.abandons old next)

/-- `d'` is what becomes of `d` when `next` takes the place of the step `old` and is named `new`. -/
structure Replaced (d : Diagram α) (old : ShapeId) (next : Shape α) (new : ShapeId)
    (d' : Diagram α) : Prop where
  fresh : new = d.nextShape
  /-- The new step is what was asked for, where the old one was. -/
  body : d'.body? new = some next.body
  place : d'.place? new = d.place? old
  dead : d'.shape? old = none
  order : d'.order = (d.order.filter fun i => !d.forsakes old next i).map fun i =>
    if i = old then new else i
  steps : d'.steps = d.steps.map fun i => if i = old then new else i
  inputs : d'.inputs = d.inputs
  outputs : d'.outputs = d.outputs.filter fun i => !d.forsakes old next i
  /-- A cable that is carried over has one successor, between the new places of its ends. -/
  carried : ∀ c k, d.cable? c = some k → k.endsAt old → d.carries old next c →
    ∃! c', d'.ends? c' = some (k.source.redirect old new, k.dest.map (·.redirect old new))
  /-- The new step has no other cables. -/
  only : ∀ c' k', d'.cable? c' = some k' → k'.endsAt new →
    ∃ c k, d.cable? c = some k ∧ k.endsAt old ∧ d.carries old next c ∧
      k'.source = k.source.redirect old new ∧ k'.dest = k.dest.map (·.redirect old new)
  gone : ∀ c k, d.cable? c = some k → k.endsAt old → d'.cable? c = none
  /-- The cables of other shapes are as they were. -/
  kept : ∀ c k, k.endsAt old = false → d.cable? c = some k → d'.cable? c = some k
  kept_only : ∀ c k, k.endsAt new = false → d'.cable? c = some k → d.cable? c = some k
  /-- The other shapes are what and where they were, but for the outputs that are gone. -/
  others_body : ∀ i, i ≠ old → i ≠ new →
    d'.body? i = if d.forsakes old next i then none else d.body? i
  others_place : ∀ i, i ≠ old → i ≠ new →
    d'.place? i = if d.forsakes old next i then none else d.place? i
  /-- A shape that no cable joins to the old step has the same cables as well. -/
  apart : ∀ i s, d.shape? i = some s → i ≠ old → (∀ c ∈ s.cables, d.cableEndsAt old c = false) →
    d'.shape? i = some s

end Diagram

/-! ## The swap in terms of the diagram -/

namespace Swap

variable [Scalar α] (w : Swap α) {d : Diagram α} {c : CableId} {i : ShapeId}

theorem fits_eq_true_iff (t : Terminal) : w.before.fits w.old w.next t = true ↔ w.Fits t := by
  unfold Diagram.fits
  by_cases ht : t.shape = w.old
  · have hmag : w.before.magnet? t = (w.previous.magnets t.side)[t.index]? :=
      magnet?_of_shape? (ht ▸ w.found)
    have hplace : t = ⟨w.old, t.side, t.index⟩ := by rw [← ht]
    rw [hmag]
    cases hm : (w.previous.magnets t.side)[t.index]? with
    | none =>
      refine iff_of_false (by simp [ht]) fun hfit => ?_
      obtain ⟨m, _, hm', -⟩ := hfit ht
      rw [hm] at hm'
      cases hm'
    | some m =>
      rw [hplace, w.fits_iff hm]
      simp
  · exact iff_of_true (by simp [ht]) (w.fits_of_ne ht)

theorem carries_eq_true_iff : w.before.carries w.old w.next c = true ↔ w.Carries c := by
  unfold Diagram.carries Carries
  cases hk : w.before.cable? c with
  | none => simp [ends?, hk]
  | some k =>
    rw [ends?_eq_some hk, Option.any_some]
    cases hdest : k.dest with
    | none => simp [Cable.isAttached, hdest]
    | some t => simp [Cable.isAttached, Cable.ends, hdest, fits_eq_true_iff]

theorem mem_cables_iff : c ∈ w.previous.cables ↔ w.before.cableEndsAt w.old c = true := by
  rw [cableEndsAt_iff]
  constructor
  · intro hc
    obtain ⟨u, hu, hcu⟩ := w.sound.toLinked.touches_of_mem_cables w.found hc
    exact ⟨u, hcu, hu⟩
  · rintro ⟨u, hcu, hu⟩
    exact w.sound.toLinked.onlyPending_cables w.found c u hcu hu

theorem done_nil_iff : w.Done [] c ↔ w.before.cableEndsAt w.old c = true := by
  rw [← mem_cables_iff, Done]
  simp

theorem done_nil_iff_endsAt {k : Cable α} (hk : w.before.cable? c = some k) :
    w.Done [] c ↔ k.endsAt w.old = true := by
  rw [w.done_nil_iff, cableEndsAt, hk, Option.any_some]

theorem stays_dropped_nil (i : ShapeId) :
    stays (w.dropped []) (.shape i) = !w.before.forsakes w.old w.next i := by
  rw [Bool.eq_iff_iff, stays_iff, Bool.not_eq_true', ← Bool.not_eq_true, not_iff_not, forsakes,
    w.sound.outputWith_iff]
  refine exists_congr fun c => ?_
  rw [abandons, Bool.and_eq_true, Bool.not_eq_true', ← Bool.not_eq_true, w.carries_eq_true_iff,
    ← w.done_nil_iff, and_assoc]

/-- What is dropped was an output. -/
theorem isOutput_of_dropped {pending : List CableId} (h : .shape i ∈ w.dropped pending) :
    w.before.has Shape.isOutput i = true ∧ i ≠ w.new := by
  obtain ⟨c, -, -, htakes⟩ := h
  cases htakes with
  | output he ht hout => exact ⟨hout, ht ▸ w.ne_new (touches_dest he)⟩

theorem place?_placed (i : ShapeId) : w.placed.place? i =
    if i = w.new then some (w.previous.position, w.previous.shift) else w.before.place? i :=
  place?_placeShape w.before _ i

theorem place?_old : w.before.place? w.old = some (w.previous.position, w.previous.shift) := by
  rw [place?, w.found]
  rfl

/-! ## The end -/

variable {w}

theorem stays_of_ne_output {pending : List CableId} (h : w.before.has Shape.isOutput i = false) :
    stays (w.dropped pending) (.shape i) = true := by
  rw [stays_iff]
  intro hi
  rw [(w.isOutput_of_dropped hi).1] at h
  cases h

section Finish

variable (hm : w.Midway [] d) (hp : w.Progress [] d)

include hp

/-- The shapes of a kind are those of the start, but for those that have been dropped. -/
theorem Progress.filter_order {p : Shape α → Bool} (hbodily : Bodily p) :
    d.order.filter (d.has p) =
      (w.before.order.filter (w.before.has p)).filter fun i => stays (w.dropped []) (.shape i) := by
  rw [hp.order, List.filter_filter, List.filter_filter]
  refine List.filter_congr fun i hi => ?_
  have hnew : i ≠ w.new := by
    rintro rfl
    have hlive := ((w.sound.mem_order _).1 hi).1
    rw [w.body?_new] at hlive
    cases hlive
  have hbody := hp.body i
  rw [w.body?_placed, if_neg hnew] at hbody
  by_cases hstays : stays (w.dropped []) (.shape i) = true
  · rw [if_pos hstays] at hbody
    rw [has_congr hbodily hbody, Bool.and_comm]
  · simp [hstays]

/-- No shape is dropped that is no output. -/
theorem Progress.filter_order_eq {p : Shape α → Bool} (hbodily : Bodily p)
    (hp' : ∀ i, w.before.has p i = true → w.before.has Shape.isOutput i = false) :
    d.order.filter (d.has p) = w.before.order.filter (w.before.has p) := by
  rw [hp.filter_order hbodily, List.filter_eq_self]
  exact fun i hi => stays_of_ne_output (hp' i (List.mem_filter.1 hi).2)

/-- A cable that ends at the new step has come from one that was carried over. -/
theorem Progress.exists_carried {c' : CableId} {k' : Cable α} (hk' : d.cable? c' = some k')
    (hnew : w.before.cable? c' ≠ some k') : ∃ c k, w.before.cable? c = some k ∧
      k.endsAt w.old = true ∧ w.before.carries w.old w.next c = true ∧
      k'.source = k.source.redirect w.old w.new ∧
      k'.dest = k.dest.map (·.redirect w.old w.new) := by
  have hnone : w.before.cable? c' = none := by
    by_contra hlive
    have hlive := Option.isSome_iff_ne_none.2 hlive
    by_cases hdone : w.Done [] c'
    · rw [hp.gone c' hdone] at hk'
      cases hk'
    · exact hnew ((hp.kept c' hlive hdone).symm.trans hk')
  obtain ⟨c, s, t, hdone, hends, hs, ht, he⟩ := hp.added c' _ hnone (ends?_eq_some hk')
  obtain ⟨k, hk, rfl, hdest⟩ := exists_cable_of_ends? hends
  obtain ⟨hsource', hdest'⟩ := Prod.mk.inj he
  have hat := w.done_nil_iff.1 hdone
  rw [cableEndsAt, hk, Option.any_some] at hat
  refine ⟨c, k, hk, hat, w.carries_eq_true_iff.2 ⟨_, t, hends, hs, ht⟩, hsource', ?_⟩
  rw [hdest', hdest]
  rfl

include hm

theorem Progress.replaced_finish :
    w.before.Replaced w.old w.next w.new (w.finish d) where
  fresh := rfl
  body := by rw [w.body?_finish, if_neg w.old_ne_new, hm.body_new]
  place := by
    have hstays : .shape w.new ∉ w.dropped [] := fun h => (w.isOutput_of_dropped h).2 rfl
    rw [place?_congr (w.shape?_finish d w.new), place?_removeShape, if_neg w.old_ne_new, hp.place,
      if_pos (stays_iff.2 hstays), w.place?_placed, if_pos rfl, w.place?_old]
  dead := by rw [w.shape?_finish, shape?_removeShape, if_pos rfl]
  order := by
    simp only [← w.stays_dropped_nil, ← hp.order]
    rfl
  steps := by
    have hsame := hp.filter_order_eq bodily_isStep fun _ => not_isOutput_of_isStep
    rw [← hm.sound.steps_eq, ← w.sound.steps_eq] at hsame
    rw [← hsame]
    rfl
  inputs := by
    have hsame := hp.filter_order_eq bodily_isInput fun _ => not_isOutput_of_isInput
    rwa [← hm.sound.inputs_eq, ← w.sound.inputs_eq] at hsame
  outputs := by
    have hsame := hp.filter_order bodily_isOutput
    rw [← hm.sound.outputs_eq, ← w.sound.outputs_eq] at hsame
    simp only [← w.stays_dropped_nil, ← hsame]
    rfl
  carried c k hk hold hcarries := by
    obtain ⟨s, t, hends, hs, ht⟩ := w.carries_eq_true_iff.1 hcarries
    have hdone := (w.done_nil_iff_endsAt hk).2 hold
    obtain ⟨c', hc'⟩ := hp.carried c s t hdone hends hs ht
    obtain ⟨hsource, hdest⟩ := Prod.mk.inj (Option.some.inj ((ends?_eq_some hk).symm.trans hends))
    rw [hsource, hdest]
    refine ⟨c', hc', fun x hx => ?_⟩
    have hside : (w.moved t).side = .input := by rw [w.moved_side, w.sound.dest_side hends]
    have hx' : d.Touches x (w.moved t) := touches_dest hx
    exact hm.sound.eq_of_touches_input (touches_dest hc') hx' hside
  only c' k' hk' hnew := by
    refine hp.exists_carried hk' fun hbefore => ?_
    obtain ⟨t, ht, hshape⟩ := List.any_eq_true.1 hnew
    have htouches := (touches_iff (ends?_eq_some hbefore)).2 (Cable.mem_ends.1 ht)
    exact w.ne_new htouches (of_decide_eq_true hshape)
  gone c k hk hold := hp.gone c ((w.done_nil_iff_endsAt hk).2 hold)
  kept c k hold hk := by
    have hdone : ¬ w.Done [] c := by rw [w.done_nil_iff_endsAt hk, hold]; exact Bool.false_ne_true
    exact (hp.kept c (Option.isSome_of_eq_some hk) hdone).trans hk
  kept_only c k hnew hk := by
    by_contra hbefore
    obtain ⟨_, _, -, hold, -, hsource, hdest⟩ := hp.exists_carried hk hbefore
    rw [Cable.endsAt_redirect hold hsource hdest] at hnew
    cases hnew
  others_body i hold hnew := by
    rw [w.body?_finish, if_neg (Ne.symm hold), hp.body, w.body?_placed, if_neg hnew,
      w.stays_dropped_nil]
    cases w.before.forsakes w.old w.next i <;> rfl
  others_place i hold hnew := by
    rw [place?_congr (w.shape?_finish d i), place?_removeShape, if_neg (Ne.symm hold), hp.place,
      w.stays_dropped_nil, w.place?_placed, if_neg hnew]
    cases w.before.forsakes w.old w.next i <;> rfl
  apart i s hs hold hapart := by
    have hnew : i ≠ w.new := by
      rintro rfl
      rw [new, shape?_nextShape] at hs
      cases hs
    rw [w.shape?_finish, shape?_removeShape, if_neg (Ne.symm hold), hp.rest i hnew, hs]
    rintro c u hdone hcu rfl
    have hc := w.sound.toLinked.onlyPending_cables hs c u hcu rfl
    rw [w.done_nil_iff, hapart c hc] at hdone
    cases hdone

end Finish

theorem exists_replaced (w : Swap α) : ∃ d',
    (replaceStep w.old w.next).run w.before =
      (.ok ⟨w.new, w.before.isFullyConnected w.old != d'.isFullyConnected w.new⟩, d') ∧
    w.before.Replaced w.old w.next w.new d' := by
  obtain ⟨d, ⟨hm, hp⟩, hrun⟩ := w.run_replaceStep_of_inv
    (P := fun pending d => w.Midway pending d ∧ w.Progress pending d) (fun _ _ h => h.1)
    (fun _ _ _ _ h hd => ⟨h.1.handled hd, h.2.handled h.1 hd⟩) ⟨w.midway_placed, w.progress_placed⟩
  have hprevious : w.before.isFullyConnected w.old = w.previous.isFullyConnected := by
    rw [isFullyConnected, w.found, Option.any_some]
  exact ⟨w.finish d, by rw [hrun, hprevious], hp.replaced_finish hm⟩

end Swap

namespace Diagram

variable [Scalar α] {d : Diagram α} {old : ShapeId} {previous next : Shape α}

/-- A step of a reachable diagram can be replaced by any step that has just been built. The outcome
says whether one of the two steps is fully connected and the other is not. -/
theorem replaced_of_reachable (h : d.Reachable) (hold : d.shape? old = some previous)
    (hprevious : previous.isStep) (hbuilt : next.Built) (hnext : next.isStep) :
    ∃ new changed d', (Edit.replaceStep old next).run d = (.ok ⟨new, changed⟩, d') ∧
      d.Replaced old next new d' ∧
      (changed = true ↔ (d.isFullyConnected old ∧ ¬ d'.isFullyConnected new) ∨
        (¬ d.isFullyConnected old ∧ d'.isFullyConnected new)) := by
  let w : Swap α := ⟨d, old, previous, next, h.sound, hold, hprevious, hnext, hbuilt.conforms⟩
  obtain ⟨d', hrun, hreplaced⟩ := w.exists_replaced
  refine ⟨_, _, d', hrun, hreplaced, ?_⟩
  change (d.isFullyConnected old != d'.isFullyConnected w.new) = true ↔ _
  cases d.isFullyConnected old <;> cases d'.isFullyConnected w.new <;> decide

/-- A step that feeds two outputs and has a loose cable. -/
def stepIntoTwo : List (Change Double) :=
  [.addShape (.step "f" [] [⟨"y", none⟩, ⟨"z", none⟩] Point.origin),
   .addShape (.output "o" none Point.origin),
   .addShape (.output "p" none Point.origin),
   .startCable ⟨⟨0⟩, .output, 0⟩,
   .connect ⟨⟨0⟩, .output, 0⟩ ⟨⟨1⟩, .input, 0⟩,
   .connect ⟨⟨0⟩, .output, 1⟩ ⟨⟨2⟩, .input, 0⟩]

def narrowStep : Shape Double := .step "g" [] [⟨"y", none⟩] ⟨1, 1⟩

/-- The first output stays, and the second goes. -/
theorem replaced_stepIntoTwo :
    ((blank.after stepIntoTwo).Reachable ∧ narrowStep.Built ∧ narrowStep.isStep ∧
      (blank.after stepIntoTwo).has Shape.isStep ⟨0⟩) ∧
    ∃ new changed d', (Edit.replaceStep ⟨0⟩ narrowStep).run (blank.after stepIntoTwo) =
        (.ok ⟨new, changed⟩, d') ∧
      (blank.after stepIntoTwo).Replaced ⟨0⟩ narrowStep new d' ∧
      new = ⟨3⟩ ∧ d'.order = [⟨3⟩, ⟨1⟩] ∧ d'.steps = [⟨3⟩] ∧ d'.outputs = [⟨1⟩] ∧
      (∃! c', d'.ends? c' = some (⟨⟨3⟩, .output, 0⟩, some ⟨⟨1⟩, .input, 0⟩)) := by
  have hreach : (blank.after stepIntoTwo).Reachable := by
    refine ⟨_, ?_, rfl⟩
    simp [stepIntoTwo, Change.Built, Shape.Built.step, Shape.Built.output]
  have hbuilt : narrowStep.Built := .step _ _ _ _
  have hafter : blank.after stepIntoTwo =
      ((blank.after (stepIntoTwo.take 4)).join ⟨⟨0⟩, .output, 0⟩ ⟨⟨1⟩, .input, 0⟩).join
        ⟨⟨0⟩, .output, 1⟩ ⟨⟨2⟩, .input, 0⟩ := by
    rw [← run_connect_of_successors_eq_nil rfl rfl rfl rfl rfl rfl (by decide) rfl,
      ← run_connect_of_successors_eq_nil rfl rfl rfl rfl rfl rfl (by decide) rfl]
    rfl
  obtain ⟨previous, hprevious, hstep⟩ : ∃ s, (blank.after stepIntoTwo).shape? ⟨0⟩ = some s ∧
      s.isStep := by
    rw [hafter]
    exact ⟨_, rfl, rfl⟩
  refine ⟨⟨hreach, hbuilt, rfl, has_iff.2 ⟨previous, hprevious, hstep⟩⟩, ?_⟩
  obtain ⟨new, changed, d', hrun, hreplaced, -⟩ :=
    replaced_of_reachable hreach hprevious hstep hbuilt rfl
  have hnew : new = ⟨3⟩ := by
    rw [hreplaced.fresh, hafter]
    rfl
  subst hnew
  refine ⟨⟨3⟩, changed, d', hrun, hreplaced, rfl, ?_, ?_, ?_, ?_⟩
  · rw [hreplaced.order, hafter]
    decide
  · rw [hreplaced.steps, hafter]
    rfl
  · rw [hreplaced.outputs, hafter]
    decide
  · obtain ⟨k, hk, hends⟩ : ∃ k, (blank.after stepIntoTwo).cable? ⟨1⟩ = some k ∧
        (k.source, k.dest) = (⟨⟨0⟩, .output, 0⟩, some ⟨⟨1⟩, .input, 0⟩) := by
      rw [hafter]
      exact ⟨_, rfl, rfl⟩
    obtain ⟨hsource, hdest⟩ := Prod.mk.inj hends
    have hcarries : (blank.after stepIntoTwo).carries ⟨0⟩ narrowStep ⟨1⟩ = true := by
      rw [hafter]
      decide
    have hone := hreplaced.carried ⟨1⟩ k hk (by simp [Cable.endsAt, Cable.ends, hsource]) hcarries
    rwa [hsource, hdest] at hone

end Diagram

end Patchbay
