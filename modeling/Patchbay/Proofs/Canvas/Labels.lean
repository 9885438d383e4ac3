import Mathlib.Data.Nat.Find
import Mathlib.Order.Bounds.Basic
import Patchbay.Proofs.Canvas.Dropping

/-!
# Labels of outputs that are made for cables

An output that is made for a cable gets the first label of a numbered series that no shape has.
`Tries` is the search for it without a bound. It ends with the least free number
(`LeastFree.tries`), which is at most one more than there are shapes (`exists_leastFree`), and the
output gets the label of that number (`freeOutputLabel_eq`).

Nothing that is done to a canvas changes the label of a shape that is there, or puts a shape into
the slot of another one (`labelled_run`). So a label that was free when an output got it is never
given to a second output while the first one is there (`made_apart`).
-/

namespace Patchbay

namespace Diagram

variable {α : Type} {d d' : Diagram α} {n m N rounds : Nat} {label label' : String}

/-! ## The search for a free label -/

/-- From the number `n` on, that many labels are tried, and the last one is free. -/
inductive Tries (d : Diagram α) : Nat → Nat → String → Prop
  | free {n : Nat} : d.Unused (Canvas.outputLabel n) → Tries d 1 n (Canvas.outputLabel n)
  | taken {rounds n : Nat} {label : String} :
      ¬ d.Unused (Canvas.outputLabel n) → Tries d rounds (n + 1) label →
      Tries d (rounds + 1) n label

/-- The search has one outcome. -/
theorem Tries.unique (h : d.Tries rounds n label) (h' : d.Tries m n label') :
    m = rounds ∧ label' = label := by
  induction h generalizing m label' with
  | free hfree =>
    cases h' with
    | free => exact ⟨rfl, rfl⟩
    | taken htaken => exact absurd hfree htaken
  | taken htaken _ ih =>
    cases h' with
    | free hfree => exact absurd hfree htaken
    | taken _ hrest =>
      obtain ⟨rfl, rfl⟩ := ih hrest
      exact ⟨rfl, rfl⟩

/-- The number is the least one, from the first on, whose label no shape has. -/
def LeastFree (d : Diagram α) (N : Nat) : Prop :=
  IsLeast {n | 1 ≤ n ∧ d.Unused (Canvas.outputLabel n)} N

/-- If the label with number `n + k` is the first free one from `n` on, then `k` taken ones are
tried before it. -/
theorem tries_of_first {k : Nat} (hfree : d.Unused (Canvas.outputLabel (n + k)))
    (htaken : ∀ j < k, ¬ d.Unused (Canvas.outputLabel (n + j))) :
    d.Tries (k + 1) n (Canvas.outputLabel (n + k)) := by
  induction k generalizing n with
  | zero => exact .free hfree
  | succ k ih =>
    have hnext : n + (k + 1) = n + 1 + k := by
      omega
    rw [hnext] at hfree ⊢
    refine .taken (htaken 0 k.succ_pos) (ih hfree fun j hj => ?_)
    have hsum : n + 1 + j = n + (j + 1) := by
      omega
    rw [hsum]
    exact htaken (j + 1) (Nat.succ_lt_succ hj)

/-- The search from the first label on ends with the least free number, after as many rounds. -/
theorem LeastFree.tries (h : d.LeastFree N) : d.Tries N 1 (Canvas.outputLabel N) := by
  obtain ⟨⟨hone, hfree⟩, hleast⟩ := h
  obtain ⟨k, rfl⟩ := Nat.exists_eq_add_of_le hone
  have htries : d.Tries (k + 1) 1 (Canvas.outputLabel (1 + k)) := by
    apply tries_of_first hfree
    intro j hj hunused
    have hle : 1 + k ≤ 1 + j := hleast ⟨Nat.le_add_right 1 j, hunused⟩
    omega
  rwa [Nat.add_comm k 1] at htries

/-- Some number is the least free one, and no greater than one more than there are shapes. -/
theorem exists_leastFree (h : d.ShapesListed []) : ∃ N ≤ d.size + 1, d.LeastFree N := by
  classical
  obtain ⟨label, hlabel, hunused⟩ := exists_unused_outputLabel h
  obtain ⟨n, hn, rfl⟩ := List.mem_map.1 hlabel
  rw [List.mem_range'_1] at hn
  have hex : ∃ n, 1 ≤ n ∧ d.Unused (Canvas.outputLabel n) := ⟨n, hn.1, hunused⟩
  have hle : Nat.find hex ≤ n := Nat.find_min' hex ⟨hn.1, hunused⟩
  exact ⟨Nat.find hex, by omega, Nat.find_spec hex, fun m hm => Nat.find_min' hex hm⟩

/-- The label that a new output gets is the one that the search ends with. -/
theorem freeOutputLabel_eq (h : d.ShapesListed []) (hN : d.LeastFree N) :
    Canvas.freeOutputLabel d = Canvas.outputLabel N := by
  obtain ⟨M, hM, hleast⟩ := exists_leastFree h
  obtain rfl : N = M := hN.unique hleast
  have hmem : N ∈ List.range' 1 (d.size + 1) := by
    rw [List.mem_range'_1]
    exact ⟨hN.1.1, by omega⟩
  have htaken : ∀ j, 1 ≤ j → j < N → ¬ d.Unused (Canvas.outputLabel j) := by
    intro j hj hlt hunused
    exact absurd (hN.2 ⟨hj, hunused⟩) (not_le.2 hlt)
  have hfind : ∀ test : String → Bool,
      (∀ n, test (Canvas.outputLabel n) = true ↔ d.Unused (Canvas.outputLabel n)) →
        (List.range' 1 (d.size + 1)).find? (test ∘ Canvas.outputLabel) = some N := by
    intro test htest
    refine List.find?_range'_eq_some.2 ⟨(htest N).2 hN.1.2, hmem, fun j hj hlt => ?_⟩
    have hfails : ¬ test (Canvas.outputLabel j) = true := (htest j).not.2 (htaken j hj hlt)
    simpa using hfails
  rw [Canvas.freeOutputLabel, List.find?_map, hfind _ fun n => (unused_iff_not_any h).symm]
  rfl

/-! ## Labels of shapes that stay -/

def label? (d : Diagram α) (id : ShapeId) : Option String := (d.shape? id).map (·.label)

theorem label?_eq (d : Diagram α) (id : ShapeId) :
    d.label? id = (d.body? id).map Shape.Body.label := by
  rw [label?, body?, Option.map_map]
  rfl

/-- No label that was in use is an unused one. -/
theorem Unused.label?_ne (h : d.Unused label) (id : ShapeId) : d.label? id ≠ some label := by
  intro hlabel
  obtain ⟨s, hs, hsame⟩ := Option.map_eq_some_iff.1 hlabel
  exact h id s hs hsame

/-- `d'` comes later than `d`, and a shape of `d` that is still there has its label. -/
structure Labelled (d d' : Diagram α) : Prop extends Later d d' where
  label : ∀ i, i.slot < d.shapeSlots.size → d'.label? i = none ∨ d'.label? i = d.label? i

theorem Labelled.refl (d : Diagram α) : d.Labelled d := ⟨.refl d, fun _ _ => .inr rfl⟩

theorem Labelled.label?_eq_some (h : d.Labelled d') {i : ShapeId}
    (hi : i.slot < d.shapeSlots.size) (hlabel : d'.label? i = some label) :
    d.label? i = some label := by
  obtain hgone | hsame := h.label i hi
  · rw [hgone] at hlabel
    cases hlabel
  · rwa [← hsame]

/-- What happens to a diagram next may remove shapes, but not change what a shape is. -/
theorem Labelled.next (h : d.Labelled d') {d'' : Diagram α} (hl : d'.Later d'')
    (hbody : ∀ i, i.slot < d'.shapeSlots.size → d''.body? i = none ∨ d''.body? i = d'.body? i) :
    d.Labelled d'' where
  toLater := h.toLater.trans hl
  label i hi := by
    have hslot : i.slot < d'.shapeSlots.size := Nat.lt_of_lt_of_le hi h.shapes.size_le
    obtain hgone | hsame := hbody i hslot
    · left
      rw [label?_eq, hgone, Option.map_none]
    · rw [label?_eq d'' i, hsame, ← label?_eq]
      exact h.label i hi

theorem Labelled.alike (h : d.Labelled d') {d'' : Diagram α} (ha : Alike d' d'') :
    d.Labelled d'' :=
  h.next ha.later fun i _ => .inr (ha.body i)

theorem body?_placeShape_of_lt {i : ShapeId} (hi : i.slot < d.shapeSlots.size) (s : Shape α) :
    (d.placeShape s).body? i = d.body? i := by
  have hne : i ≠ d.nextShape := by
    intro hnew
    rw [hnew] at hi
    exact Nat.lt_irrefl _ hi
  rw [body?_placeShape, if_neg hne]

theorem Labelled.placeShape (h : d.Labelled d') (s : Shape α) : d.Labelled (d'.placeShape s) :=
  h.next (later_placeShape d' s) fun _ hi => .inr (body?_placeShape_of_lt hi s)

theorem Labelled.addShape (h : d.Labelled d') (s : Shape α) : d.Labelled (d'.addShape s) :=
  h.next (later_addShape d' s) fun i hi =>
    .inr ((body?_addShape d' s i).trans (body?_placeShape_of_lt hi s))

theorem stable_labelled [Scalar α] (d : Diagram α) : Stable d.Labelled where
  unplug h id c := h.next (later_unplug _ id c) fun i _ => .inr (body?_unplug _ id c i)
  removeShape h id := by
    apply h.next (later_removeShape _ id)
    intro i _
    rw [body?_removeShape]
    by_cases hi : id = i
    · exact .inl (if_pos hi)
    · exact .inr (if_neg hi)
  start h s p := h.next (later_start _ s p) fun i _ => .inr (body?_start _ s p i)
  land h id t := h.next (later_land _ id t) fun i _ => .inr (body?_land _ id t i)
  moveEnd h id _ := h.next (later_modifyCable _ id _) fun _ _ => .inr rfl
  relist h id _ _ := by
    refine h.next ⟨Arena.later_remove _ _, .refl _⟩ fun i _ => ?_
    simp only [body?, shape?, Arena.get?_remove]
    by_cases hi : id = i.slot
    · simp [hi]
    · simp [hi]

/-- The shapes are none that are still to come, and those that are there have different labels. -/
structure Apart (d : Diagram α) (ids : List ShapeId) : Prop where
  slot_lt : ∀ i ∈ ids, i.slot < d.shapeSlots.size
  labels : ids.Pairwise fun i j => ∀ label, d.label? i = some label → d.label? j ≠ some label

theorem Apart.labelled {ids : List ShapeId} (h : d.Apart ids)
    (hl : d.Labelled d') : d'.Apart ids where
  slot_lt i hi := Nat.lt_of_lt_of_le (h.slot_lt i hi) hl.shapes.size_le
  labels := by
    refine h.labels.imp_of_mem fun {i j} hi hj hij label hlabel => ?_
    have hbefore := hl.label?_eq_some (h.slot_lt i hi) hlabel
    intro hlabel'
    exact hij label hbefore (hl.label?_eq_some (h.slot_lt j hj) hlabel')

end Diagram

namespace Canvas

open Diagram Running

variable {α : Type} [Scalar α] {c c' : Canvas α} {P : Diagram α → Prop} {id : CableId}
  {p : Point α} {o : ShapeId}

/-! ## What all actions keep -/

/-- What edits keep is kept also when shapes come or move. -/
structure Enduring (P : Diagram α → Prop) : Prop extends Stable P where
  addShape : ∀ {d}, P d → ∀ s, P (d.addShape s)
  placeShape : ∀ {d}, P d → ∀ s, P (d.placeShape s)
  alike : ∀ {d d'}, P d → Alike d d' → P d'

theorem keeps_thenUpdatePhases {β γ : Type} {x : Action α β} (h : Keeps (fun c => P c.diagram) x)
    (f : β → γ) : Keeps (fun c => P c.diagram)
      (x >>= fun b => modify updatePhases >>= fun _ => pure (f b)) :=
  keeps_thenUpdate (fun _ hc => hc) h f

namespace Enduring

variable (h : Enduring P)

include h

theorem run_addShape (s : Shape α) (hc : P c.diagram) :
    P ((Canvas.addShape s).run c).2.diagram := by
  have hsettled := h.alike (h.addShape hc s)
    (alike_resolve_settle (c.withDiagram (c.diagram.addShape s)) c.diagram.nextShape)
  rw [Canvas.run_addShape]
  dsimp only
  split
  · exact hsettled
  · split <;> exact hsettled

theorem run_moveShape (id : ShapeId) (delta : Point α) (hc : P c.diagram) :
    P ((Canvas.moveShape id delta).run c).2.diagram := by
  rw [Canvas.run_moveShape]
  split
  · have hmoved := h.alike (h.alike hc (alike_shiftBy c.diagram id delta))
      (Collision.alike_resolve c.surroundings c.settings.dragBias id _)
    dsimp only
    split <;> exact hmoved
  · exact hc

theorem keeps_outputFor (id : CableId) (source : Terminal) (p : Point α) :
    Keeps (fun c => P c.diagram) (outputFor id source p) := by
  intro c hc
  have hadded : P (c.diagram.addShape (outputAt c.diagram source p)) := h.addShape hc _
  have hattached := h.attach id ⟨c.diagram.nextShape, .input, 0⟩ _ hadded
  rw [run_outputFor]
  rcases hrun : (Edit.attach id ⟨c.diagram.nextShape, .input, 0⟩).run
    (c.diagram.addShape (outputAt c.diagram source p)) with ⟨e | u, d⟩
  · exact h.removeShape hadded _
  · rw [hrun] at hattached
    exact h.alike hattached (alike_resolve_settle (c.withDiagram d) _)

theorem run_dropCable (id : CableId) (p : Point α) (hc : P c.diagram) :
    P ((Canvas.dropCable id p).run c).2.diagram := by
  have hdelete : Keeps (fun c => P c.diagram) (edit (.deleteCable id)) :=
    keeps_edit (h.deleteCable id)
  refine dropCable_cases (P := fun c => P c.diagram) id p hc (fun dest => ?_) (fun source => ?_) ?_
  · have hland : Keeps (fun c => P c.diagram) (landCable id dest) :=
      keeps_landCable (keeps_attempt (h.attach id dest)) hdelete
    exact keeps_thenUpdatePhases hland (fun outcome => outcome) c hc
  · exact keeps_thenUpdatePhases (h.keeps_outputFor id source p) (fun outcome => outcome) c hc
  · exact keeps_thenUpdatePhases hdelete (fun _ => Drop.discarded) c hc

theorem run_tryLayOut (hc : P c.diagram) : P (Canvas.tryLayOut.run c).2.diagram := by
  rw [Canvas.run_tryLayOut]
  split
  · rename_i phases _
    have hlaid := h.alike hc (Layout.alike_auto c.surroundings phases c.diagram)
    revert hlaid
    rcases (Layout.auto c.surroundings phases).run c.diagram with ⟨_ | _, d⟩
    · exact id
    · exact id
  · exact hc

/-- Every action keeps it, also when it is refused. -/
theorem run (hc : P c.diagram) (g : Gesture α) : P (c.run g).2.diagram := by
  rw [run_snd]
  cases g with
  | addShape s => exact h.run_addShape s hc
  | moveShape id delta => exact h.run_moveShape id delta hc
  | finishDrag => exact h.alike hc (alike_settle c.diagram)
  | delete item => exact keeps_thenUpdatePhases (keeps_edit (h.delete item)) (fun _ => ()) c hc
  | replaceStep old next =>
    have hreplace : Keeps P (Edit.replaceStep old next) := fun _ hd =>
      h.replaceStep hd fun _ _ => h.placeShape hd _
    exact keeps_thenUpdatePhases (keeps_edit hreplace) (fun outcome => outcome) c hc
  | startCable s => exact keeps_edit (h.startCable s) c hc
  | dragCable id p => exact keeps_edit (h.keeps_moveEnd id p) c hc
  | dropCable id p => exact h.run_dropCable id p hc
  | updatePhases => exact hc
  | layOut => exact h.run_tryLayOut hc

end Enduring

theorem enduring_labelled (d : Diagram α) : Enduring d.Labelled where
  toStable := stable_labelled d
  addShape h s := h.addShape s
  placeShape h s := h.placeShape s
  alike h ha := h.alike ha

/-- No action changes the label of a shape that stays. -/
theorem labelled_run (c : Canvas α) (g : Gesture α) :
    c.diagram.Labelled (c.run g).2.diagram :=
  (enduring_labelled c.diagram).run (.refl c.diagram) g

/-! ## Outputs that are made -/

theorem attach_eq_ok {d d' : Diagram α} {t : Terminal} {u : Unit}
    (h : (Edit.attach id t).run d = (.ok u, d')) : d' = d.land id t := by
  rw [Edit.run_attach] at h
  split at h
  · cases h
  · split at h
    · cases h
    · split at h
      · cases h
      · exact (Prod.mk.inj h).2.symm

theorem exists_of_thenUpdate {x : Action α Drop} {outcome : Drop}
    (h : (x >>= fun b => modify updatePhases >>= fun _ => pure b).run c = (.ok outcome, c')) :
    ∃ c₁, x.run c = (.ok outcome, c₁) ∧ c₁.diagram = c'.diagram := by
  rw [run_bind] at h
  rcases hx : x.run c with ⟨e | b, c₁⟩
  · rw [hx] at h
    cases h
  · rw [hx] at h
    cases h
    exact ⟨c₁, rfl, rfl⟩

omit [Scalar α] in
theorem ne_created_of_discard {x : Action α Unit} {f : Unit → Action α Drop}
    (hf : ∀ u c₁, ((f u).run c₁).1 = .ok .discarded) :
    (x >>= f).run c ≠ (.ok (.created o), c') := by
  intro h
  obtain ⟨u, c₁, -, hrest⟩ := run_bind_eq_ok_iff.1 h
  have hdiscarded := hf u c₁
  rw [hrest] at hdiscarded
  cases hdiscarded

theorem landCable_ne_created (dest : Terminal) :
    (landCable id dest).run c ≠ (.ok (.created o), c') := by
  intro h
  rw [landCable, run_bind_ok (run_attempt _ c)] at h
  cases hattach : ((Edit.attach id dest).run c.diagram).1 with
  | ok u =>
    rw [hattach] at h
    cases h
  | error e =>
    rw [hattach] at h
    exact ne_created_of_discard (fun _ _ => rfl) h

/-- The diagram after an output was made for a cable. -/
theorem alike_of_outputFor {source : Terminal}
    (h : (outputFor id source p).run c = (.ok (.created o), c')) :
    o = c.diagram.nextShape ∧
      Alike ((c.diagram.addShape (outputAt c.diagram source p)).land id ⟨o, .input, 0⟩)
        c'.diagram := by
  rw [run_outputFor] at h
  split at h
  · rename_i u d hattach
    cases h
    obtain rfl := attach_eq_ok hattach
    exact ⟨rfl, alike_resolve_settle (c.withDiagram _) _⟩
  · cases h

/-- A cable that lands or is removed leaves no output behind. -/
theorem exists_outputFor_of_created (h : (dropCable id p).run c = (.ok (.created o), c')) :
    ∃ source c₁, (outputFor id source p).run c = (.ok (.created o), c₁) ∧
      c₁.diagram = c'.diagram := by
  rw [Canvas.dropCable, run_bind, run_edit, Edit.run_requireCable] at h
  cases hk : c.diagram.cable? id with
  | none =>
    rw [hk] at h
    cases h
  | some k =>
    rw [hk] at h
    dsimp only at h
    rw [run_get_bind] at h
    split at h
    · obtain ⟨c₁, hland, -⟩ := exists_of_thenUpdate h
      exact absurd hland (landCable_ne_created _)
    · split at h
      · obtain ⟨c₁, houtput, hsame⟩ := exists_of_thenUpdate h
        exact ⟨k.source, c₁, houtput, hsame⟩
      · exact absurd h (ne_created_of_discard fun _ _ => rfl)

/-- An output that is made for a cable has the label that was free. -/
theorem label?_of_created (h : (dropCable id p).run c = (.ok (.created o), c')) :
    c'.diagram.label? o = some (freeOutputLabel c.diagram) := by
  obtain ⟨source, c₁, hrun, hsame⟩ := exists_outputFor_of_created h
  obtain ⟨hnew, halike⟩ := alike_of_outputFor hrun
  rw [hsame] at halike
  rw [label?_eq, halike.body, body?_land, body?_addShape, body?_placeShape, if_pos hnew]
  rfl

/-- The output that an action makes for a cable, if it makes one. -/
def madeBy (c : Canvas α) : Gesture α → Option ShapeId
  | .dropCable id p =>
    match ((dropCable id p).run c).1 with
    | .ok (.created o) => some o
    | _ => none
  | _ => none

/-- The outputs that some actions make for cables, in the order they come. -/
def made : Canvas α → List (Gesture α) → List ShapeId
  | _, [] => []
  | c, g :: gs => (madeBy c g).toList ++ made (c.run g).2 gs

/-- An action that makes an output gives it a label that no shape has. -/
theorem label?_of_madeBy (h : c.diagram.ShapesListed []) {g : Gesture α}
    (ho : madeBy c g = some o) :
    ∃ label, c.diagram.Unused label ∧ (c.run g).2.diagram.label? o = some label := by
  unfold madeBy at ho
  split at ho
  · rename_i id p
    split at ho
    · rename_i o' hcreated
      cases ho
      have hrun : (dropCable id p).run c = (.ok (.created o), (c.run (.dropCable id p)).2) := by
        rw [run_snd]
        exact Prod.ext hcreated rfl
      exact ⟨_, unused_freeOutputLabel h, label?_of_created hrun⟩
    · cases ho
  · cases ho

/-- One action: the outputs made so far stay apart, and one that it makes is apart from them. -/
theorem apart_run {ids : List ShapeId} (h : c.diagram.Apart ids) (hs : c.diagram.ShapesListed [])
    (g : Gesture α) : (c.run g).2.diagram.Apart (ids ++ (madeBy c g).toList) := by
  have hl : c.diagram.Labelled (c.run g).2.diagram := labelled_run c g
  have hstay : (c.run g).2.diagram.Apart ids := h.labelled hl
  cases ho : madeBy c g with
  | none => rwa [Option.toList_none, List.append_nil]
  | some o =>
    obtain ⟨label, hunused, hlabel⟩ := label?_of_madeBy hs ho
    obtain ⟨s, hshape, -⟩ := Option.map_eq_some_iff.1 hlabel
    rw [Option.toList_some]
    refine ⟨fun i hi => ?_, List.pairwise_append.2 ⟨hstay.labels, List.pairwise_singleton _ o, ?_⟩⟩
    · obtain hi | hi := List.mem_append.1 hi
      · exact hstay.slot_lt i hi
      · obtain rfl := List.mem_singleton.1 hi
        exact Arena.lt_size_of_get? hshape
    -- a label that a shape has now it had before, when the label of the new output was unused
    · intro i hi j hj taken htaken
      obtain rfl := List.mem_singleton.1 hj
      rw [hlabel]
      intro hsame
      have hbefore := hl.label?_eq_some (h.slot_lt i hi) htaken
      rw [← hsame] at hbefore
      exact hunused.label?_ne i hbefore

/-- Many actions, one after the other. -/
theorem apart_after {ids : List ShapeId} (h : c.diagram.Apart ids) (hc : c.InStep)
    {gestures : List (Gesture α)} (hg : ∀ g ∈ gestures, g.Built) :
    (c.after gestures).diagram.Apart (ids ++ made c gestures) := by
  induction gestures generalizing c ids with
  | nil => rwa [made, List.append_nil]
  | cons g gs ih =>
    rw [made, ← List.append_assoc]
    exact ih (apart_run h hc.sound.toShapesListed g) (hc.run (hg g List.mem_cons_self))
      fun g' hg' => hg g' (List.mem_cons_of_mem g hg')

/-- **Labels of outputs.** On every reachable canvas the search for a free label ends, after no more
rounds than there are shapes and one more, with the least number whose label no shape has. An output
that is made for a cable gets that label. So whatever is done to a canvas, those of the outputs made
in the course of it that are there together have different labels. -/
theorem made_apart (h : c.Reachable) :
    (∃ N ≤ c.diagram.size + 1, c.diagram.LeastFree N ∧
      freeOutputLabel c.diagram = outputLabel N ∧
      ∀ rounds label, c.diagram.Tries rounds 1 label ↔
        rounds = N ∧ label = freeOutputLabel c.diagram) ∧
    (∀ id p o c', (dropCable id p).run c = (.ok (.created o), c') →
      c'.diagram.label? o = some (freeOutputLabel c.diagram)) ∧
    ∀ gestures : List (Gesture α), (∀ g ∈ gestures, g.Built) →
      (made c gestures).Pairwise fun o o' => ∀ label,
        (c.after gestures).diagram.label? o = some label →
          (c.after gestures).diagram.label? o' ≠ some label := by
  have hc : c.InStep := h.inStep
  have hs : c.diagram.ShapesListed [] := hc.sound.toShapesListed
  refine ⟨?_, fun id p o c' hrun => label?_of_created hrun, fun gestures hg => ?_⟩
  · obtain ⟨N, hle, hN⟩ := exists_leastFree hs
    have hlabel : freeOutputLabel c.diagram = outputLabel N := freeOutputLabel_eq hs hN
    refine ⟨N, hle, hN, hlabel, fun rounds label => ?_⟩
    rw [hlabel]
    apply Iff.intro
    · intro htries
      exact hN.tries.unique htries
    · intro hsame
      rw [hsame.1, hsame.2]
      exact hN.tries
  · have hnone : c.diagram.Apart [] := ⟨fun i hi => absurd hi List.not_mem_nil, List.Pairwise.nil⟩
    exact (apart_after hnone hc hg).labels

/-- The canvas after an output was made at a point for a loose cable from `s`. -/
def withOutput (c : Canvas α) (id : CableId) (s : Terminal) (p : Point α) : Canvas α :=
  (((c.withDiagram ((c.diagram.addShape (outputAt c.diagram s p)).land id
    ⟨c.diagram.nextShape, .input, 0⟩)).resolve c.diagram.nextShape).1.settle).updatePhases

/-- In the output zone, away from magnets, a loose cable gets an output. -/
theorem run_dropCable_of_zone {s : Terminal} (hs : c.diagram.Sound [])
    (hid : c.diagram.ends? id = some (s, none)) (hat : c.magnetAt? p = none)
    (hzone : c.zone.Contains p) :
    (dropCable id p).run c = (.ok (.created c.diagram.nextShape), c.withOutput id s p) := by
  rw [run_dropCable hid p, letGo_of_zone id s (by simp [hat]) hzone,
    run_bind_ok (run_outputFor_of_loose hs hid p)]
  rfl

/-- A canvas on which collisions are left alone, with an input that is named like an output and has
two loose cables. -/
def namesakeCanvas : Canvas Double :=
  ofDiagram { Settings.standard with maxPushes := 0 } (Diagram.blank.after
    [.addShape (.rawInput "output_1" ⟨(100 : Nat), (100 : Nat)⟩),
     .startCable ⟨⟨0⟩, .output, 0⟩, .startCable ⟨⟨0⟩, .output, 0⟩])

def besideZonePoint : Point Double := ⟨(650 : Nat), (20 : Nat)⟩

/-- Both cables are let go in the output zone. -/
def twoDrops : List (Gesture Double) :=
  [.dropCable ⟨0⟩ zonePoint, .dropCable ⟨1⟩ besideZonePoint]

theorem reachable_namesakeCanvas : namesakeCanvas.Reachable := by
  refine ⟨{ Settings.standard with maxPushes := 0 }, _, ⟨_, ?_, rfl⟩, [], ?_, rfl⟩
  · simp [Change.Built, Shape.Built.rawInput]
  · simp

def oneDropped : Canvas Double := namesakeCanvas.withOutput ⟨0⟩ ⟨⟨0⟩, .output, 0⟩ zonePoint

theorem run_firstDrop :
    (dropCable ⟨0⟩ zonePoint).run namesakeCanvas = (.ok (.created ⟨1⟩), oneDropped) := by
  have hid : namesakeCanvas.diagram.ends? ⟨0⟩ = some (⟨⟨0⟩, .output, 0⟩, none) := by
    decide +kernel
  have hat : namesakeCanvas.magnetAt? zonePoint = none := by
    decide +kernel
  have hzone : namesakeCanvas.zone.Contains zonePoint := by
    decide +kernel
  exact run_dropCable_of_zone reachable_namesakeCanvas.inStep.sound hid hat hzone

theorem run_secondDrop : (dropCable ⟨1⟩ besideZonePoint).run oneDropped =
    (.ok (.created ⟨2⟩), oneDropped.withOutput ⟨1⟩ ⟨⟨0⟩, .output, 0⟩ besideZonePoint) := by
  have hin := reachable_namesakeCanvas.inStep.dropCable ⟨0⟩ zonePoint
  rw [run_firstDrop] at hin
  have hid : oneDropped.diagram.ends? ⟨1⟩ = some (⟨⟨0⟩, .output, 0⟩, none) := by
    decide +kernel
  have hat : oneDropped.magnetAt? besideZonePoint = none := by
    decide +kernel
  have hzone : oneDropped.zone.Contains besideZonePoint := by
    decide +kernel
  have hnew : oneDropped.diagram.nextShape = ⟨2⟩ := by
    decide +kernel
  rw [run_dropCable_of_zone hin.sound hid hat hzone, hnew]

/-- The two outputs get the second and the third label. -/
theorem made_apart_namesake :
    namesakeCanvas.Reachable ∧
    (∃ N ≤ 2, namesakeCanvas.diagram.LeastFree N ∧ "output_2" = outputLabel N ∧
      ∀ rounds label, namesakeCanvas.diagram.Tries rounds 1 label ↔
        rounds = N ∧ label = "output_2") ∧
    made namesakeCanvas twoDrops = [⟨1⟩, ⟨2⟩] ∧
    (namesakeCanvas.after twoDrops).diagram.label? ⟨1⟩ = some "output_2" ∧
    (namesakeCanvas.after twoDrops).diagram.label? ⟨2⟩ ≠ some "output_2" := by
  have hfree : freeOutputLabel namesakeCanvas.diagram = "output_2" := by
    decide +kernel
  obtain ⟨hleast, -, hapart⟩ := made_apart reachable_namesakeCanvas
  rw [hfree] at hleast
  have hmade : made namesakeCanvas twoDrops = [⟨1⟩, ⟨2⟩] := by
    simp only [twoDrops, made, madeBy, run_snd, run_firstDrop, run_secondDrop]
    rfl
  have hlabel : (namesakeCanvas.after twoDrops).diagram.label? ⟨1⟩ = some "output_2" := by
    simp only [twoDrops, Canvas.after, List.foldl_cons, List.foldl_nil, run_snd, run_firstDrop,
      run_secondDrop]
    decide +kernel
  have hpair := hapart twoDrops (by simp [twoDrops, Gesture.Built])
  rw [hmade] at hpair
  refine ⟨reachable_namesakeCanvas, hleast, hmade, hlabel, ?_⟩
  exact List.rel_of_pairwise_cons hpair List.mem_cons_self "output_2" hlabel

end Canvas

end Patchbay
