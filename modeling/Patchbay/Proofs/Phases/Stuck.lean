import Mathlib.Data.Fintype.EquivFin
import Patchbay.Proofs.Pairing
import Patchbay.Proofs.Phases

/-!
# Steps that wait in vain

A step is `Stuck` if it has an input magnet without a cable, or if cables lead to it from a step
that has one. Rounds never place a stuck step, since what feeds it would have to be placed before.
When they come to a halt, every step that is left waits for a cable or for another step that is
left; cables close no loop, so at the end of that there is a missing cable. What is left is thus
exactly what is stuck (`Halted.mem_iff`), and a diagram has an order of execution unless a cable
into a step is missing (`compute_eq_error_iff`).
-/

namespace Patchbay

namespace Phases

open Diagram Relation

variable {α : Type} {d : Diagram α} {id : ShapeId}

/-! ## Waiting for a cable -/

/-- A cable is missing at the step, or at a step that cables lead from to this one. -/
def Stuck (d : Diagram α) (id : ShapeId) : Prop :=
  ∃ a, a ∈ d.steps ∧ ¬ Cabled d a ∧ ReflTransGen d.Feeds a id

theorem Stuck.of_not_cabled (hid : id ∈ d.steps) (h : ¬ Cabled d id) : Stuck d id :=
  ⟨id, hid, h, .refl⟩

theorem Stuck.of_feeds {a : ShapeId} (h : Stuck d a) (hfeeds : d.Feeds a id) : Stuck d id := by
  obtain ⟨b, hb, hmissing, hpath⟩ := h
  exact ⟨b, hb, hmissing, hpath.tail hfeeds⟩

/-- A stuck step lacks a cable itself or is fed by a stuck one. -/
theorem Stuck.cases [Scalar α] (h : Stuck d id) (hs : d.Sound []) (hid : id ∈ d.steps) :
    ¬ Cabled d id ∨ ∃ a, d.StepFeeds a id ∧ Stuck d a := by
  obtain ⟨a, ha, hmissing, hpath⟩ := h
  rcases ReflTransGen.cases_tail hpath with rfl | ⟨b, hab, hfeeds⟩
  · exact .inl hmissing
  · refine .inr ⟨b, ⟨?_, hid, hfeeds⟩, a, ha, hmissing, hab⟩
    rcases ReflTransGen.cases_tail hab with rfl | ⟨c, -, hcb⟩
    · exact ha
    · exact hs.mem_steps_of_feeds hcb hfeeds

/-- To follow cables against their direction comes to an end. -/
theorem wellFounded_feeds (h : d.Acyclic) (ids : List ShapeId) :
    WellFounded fun a b : {x // x ∈ ids} => TransGen d.Feeds a.1 b.1 := by
  have : IsTrans {x // x ∈ ids} fun a b => TransGen d.Feeds a.1 b.1 :=
    ⟨fun _ _ _ hab hbc => hab.trans hbc⟩
  have : Std.Irrefl fun a b : {x // x ∈ ids} => TransGen d.Feeds a.1 b.1 := ⟨fun a => h a.1⟩
  exact Finite.wellFounded_of_trans_of_irrefl _

/-! ## Coming to a halt -/

/-- Rounds come to a halt with these steps left. -/
inductive Halted (d : Diagram α) : List ShapeId → List ShapeId → List ShapeId → Prop
  | stop {placed remaining : List ShapeId} : remaining ≠ [] →
      remaining.filter (isReady d placed) = [] → Halted d placed remaining remaining
  | round {placed remaining left : List ShapeId} :
      Halted d (placed ++ remaining.filter (isReady d placed))
        (remaining.filter fun id => !isReady d placed id) left →
      Halted d placed remaining left

/-- The labels of steps that are left. -/
def labelsOf (d : Diagram α) (ids : List ShapeId) : List String :=
  ids.filterMap fun id => (d.shape? id).map (·.label)

/-- A round that places a step leaves fewer steps. -/
theorem length_filter_not_lt {β : Type} {p : β → Bool} {l : List β} (h : l.filter p ≠ []) :
    (l.filter fun x => !p x).length < l.length := by
  obtain ⟨x, hx⟩ := List.exists_mem_of_ne_nil _ h
  obtain ⟨hmem, hpx⟩ := List.mem_filter.1 hx
  refine List.length_filter_lt_length_iff_exists.2 ⟨x, hmem, ?_⟩
  simp [hpx]

/-- Rounds place all steps or come to a halt, before there are as many rounds as steps. -/
theorem form_cases (d : Diagram α) (limit : Nat) {rounds : Nat} {placed remaining : List ShapeId}
    (hlen : remaining.length ≤ rounds) :
    (∃ layers, form d limit rounds placed remaining = .ok layers) ∨
    ∃ left, Halted d placed remaining left ∧
      form d limit rounds placed remaining = .error (.indeterminate (labelsOf d left)) := by
  induction rounds generalizing placed remaining with
  | zero =>
    cases List.length_eq_zero_iff.1 (Nat.le_zero.1 hlen)
    exact .inl ⟨[], rfl⟩
  | succ rounds ih =>
    cases remaining with
    | nil => exact .inl ⟨[], rfl⟩
    | cons x xs =>
      have hnot : not ∘ isReady d placed = fun id => !isReady d placed id := rfl
      rw [form, List.partition_eq_filter_filter, hnot]
      · dsimp only
        by_cases hnil : (x :: xs).filter (isReady d placed) = []
        · have hall : (x :: xs).filter (fun id => !isReady d placed id) = x :: xs := by
            rw [List.filter_eq_nil_iff] at hnil
            refine List.filter_eq_self.2 fun id hid => ?_
            simp [hnil id hid]
          rw [hnil, hall]
          exact .inr ⟨_, .stop (List.cons_ne_nil x xs) hnil, rfl⟩
        · rw [if_neg (by simpa using hnil)]
          have hlt := length_filter_not_lt hnil
          have hlen' : ((x :: xs).filter fun id => !isReady d placed id).length ≤ rounds := by
            omega
          rcases @ih (placed ++ (x :: xs).filter (isReady d placed)) _ hlen' with
            ⟨layers, hok⟩ | ⟨left, hleft, herror⟩
          · exact .inl ⟨_, by rw [hok]; rfl⟩
          · exact .inr ⟨left, .round hleft, by rw [herror]; rfl⟩
      · simp

variable {placed remaining left : List ShapeId}

theorem Halted.ne_nil (h : Halted d placed remaining left) : left ≠ [] := by
  induction h with
  | stop hne _ => exact hne
  | round _ ih => exact ih

theorem Halted.sublist (h : Halted d placed remaining left) : left.Sublist remaining := by
  induction h with
  | stop => exact .refl _
  | round _ ih => exact ih.trans List.filter_sublist

/-- If no step can be placed, all that remain are stuck. -/
theorem stuck_of_no_ready [Scalar α] (hs : d.Sound [])
    (hsteps : ∀ id, id ∈ d.steps ↔ id ∈ placed ∨ id ∈ remaining)
    (hnone : remaining.filter (isReady d placed) = []) : ∀ id ∈ remaining, Stuck d id := by
  -- Each step that remains is shown to be stuck once those that lead to it are.
  suffices hall : ∀ x : {x // x ∈ remaining}, Stuck d x.1 from fun id hid => hall ⟨id, hid⟩
  intro x
  induction x using (wellFounded_feeds hs.acyclic remaining).induction with
  | _ x ih =>
    have hx : x.1 ∈ d.steps := (hsteps x.1).2 (.inr x.2)
    have hnot : ¬ isReady d placed x.1 = true := List.filter_eq_nil_iff.1 hnone x.1 x.2
    rw [isReady_iff hs.toWired hs.toShapesListed hx] at hnot
    by_cases hcabled : Cabled d x.1
    · obtain ⟨a, ha⟩ := not_forall.1 fun hall => hnot ⟨hcabled, hall⟩
      obtain ⟨hfeeds, hplaced⟩ := Classical.not_imp.1 ha
      have hleft : a ∈ remaining := ((hsteps a).1 hfeeds.1).resolve_left hplaced
      exact (ih ⟨a, hleft⟩ (.single hfeeds.2.2)).of_feeds hfeeds.2.2
    · exact .of_not_cabled hx hcabled

/-- What is left at a halt is what is stuck. -/
theorem Halted.mem_iff [Scalar α] (h : Halted d placed remaining left) (hs : d.Sound [])
    (hsteps : ∀ id, id ∈ d.steps ↔ id ∈ placed ∨ id ∈ remaining)
    (hplaced : ∀ id ∈ placed, ¬ Stuck d id) : ∀ id, id ∈ left ↔ id ∈ d.steps ∧ Stuck d id := by
  induction h with
  | stop _ hnone =>
    intro id
    rw [hsteps]
    refine ⟨fun hid => ⟨.inr hid, stuck_of_no_ready hs hsteps hnone id hid⟩, ?_⟩
    rintro ⟨hid | hid, hstuck⟩
    · exact absurd hstuck (hplaced id hid)
    · exact hid
  | @round placed remaining left _ ih =>
    refine ih (fun id => ?_) fun id hid => ?_
    · rw [hsteps]
      by_cases hr : isReady d placed id <;> simp [hr]
    · rcases List.mem_append.1 hid with hid | hid
      · exact hplaced id hid
      · obtain ⟨hid, hready⟩ := List.mem_filter.1 hid
        have hstep : id ∈ d.steps := (hsteps id).2 (.inr hid)
        obtain ⟨hcabled, hbefore⟩ := (isReady_iff hs.toWired hs.toShapesListed hstep).1 hready
        intro hstuck
        rcases hstuck.cases hs hstep with hmissing | ⟨a, hfeeds, ha⟩
        · exact hmissing hcabled
        · exact hplaced a (hbefore a hfeeds) ha

/-! ## Diagrams without an order of execution -/

/-- These are the labels of the stuck steps, in the order of the steps. -/
def Unplaced (d : Diagram α) (labels : List String) : Prop :=
  ∃ ids : List ShapeId, ids.Sublist d.steps ∧ (∀ id, id ∈ ids ↔ id ∈ d.steps ∧ Stuck d id) ∧
    List.Forall₂ (fun id label => ∃ s, d.shape? id = some s ∧ s.label = label) ids labels

theorem forall₂_labelsOf {ids : List ShapeId} (hlive : ∀ id ∈ ids, (d.shape? id).isSome) :
    List.Forall₂ (fun id label => ∃ s, d.shape? id = some s ∧ s.label = label) ids
      (labelsOf d ids) := by
  have hlabels : ∀ id ∈ ids, ((d.shape? id).map (·.label)).isSome := by simpa using hlive
  exact (forall₂_filterMap hlabels).imp fun _ _ => Option.map_eq_some_iff.1

variable [Scalar α]

theorem compute_cases (hs : d.Sound []) :
    (∃ p, compute d = .ok p ∧ ∀ id ∈ d.steps, Cabled d id) ∨
    ∃ labels, compute d = .error (.indeterminate labels) ∧ Unplaced d labels ∧
      ∃ id ∈ d.steps, ¬ Cabled d id := by
  have hlen : d.steps.length ≤ d.steps.length + 1 := Nat.le_succ _
  rcases @form_cases _ d (d.steps.length + 1) _ [] _ hlen with
    ⟨layers, hok⟩ | ⟨left, hhalted, herror⟩
  · refine .inl ⟨sortShared d ⟨layers⟩, by rw [compute, hok]; rfl, ?_⟩
    exact (formed_of_form hok).cabled hs.toWired hs.toShapesListed fun _ hid => hid
  · have hmem := hhalted.mem_iff hs (by simp) (by simp)
    have hlive : ∀ id ∈ left, (d.shape? id).isSome :=
      fun id hid => isSome_shape?_of_mem_steps hs ((hmem id).1 hid).1
    refine .inr ⟨labelsOf d left, by rw [compute, herror]; rfl,
      ⟨left, hhalted.sublist, hmem, forall₂_labelsOf hlive⟩, ?_⟩
    obtain ⟨id, hid⟩ := List.exists_mem_of_ne_nil left hhalted.ne_nil
    obtain ⟨a, ha, hmissing, -⟩ := ((hmem id).1 hid).2
    exact ⟨a, ha, hmissing⟩

theorem cabled_of_compute {p : Phases} (hs : d.Sound []) (h : compute d = .ok p) :
    ∀ id ∈ d.steps, Cabled d id := by
  rcases compute_cases hs with ⟨-, -, hall⟩ | ⟨labels, herror, -⟩
  · exact hall
  · rw [h] at herror
    cases herror

/-- A reachable diagram has no order of execution just when some step has an input without a cable.
The error names the steps that are stuck because of that, and never a limit of rounds. -/
theorem compute_eq_error_iff (h : d.Reachable) :
    ((∃ e, compute d = .error e) ↔ ∃ id ∈ d.steps, ¬ Cabled d id) ∧
    (∀ e, compute d = .error e → ∃ labels, e = .indeterminate labels ∧ Unplaced d labels) ∧
    ∀ limit, compute d ≠ .error (.roundLimit limit) := by
  rcases compute_cases h.sound with ⟨p, hp, hall⟩ | ⟨labels, herror, hlabels, hmissing⟩
  · rw [hp]
    refine ⟨⟨?_, ?_⟩, fun e he => ?_, fun limit he => ?_⟩
    · rintro ⟨e, he⟩
      cases he
    · rintro ⟨id, hid, hmissing⟩
      exact absurd (hall id hid) hmissing
    · cases he
    · cases he
  · rw [herror]
    refine ⟨⟨fun _ => hmissing, fun _ => ⟨_, rfl⟩⟩, fun e he => ?_, fun limit he => ?_⟩
    · cases he
      exact ⟨labels, rfl, hlabels⟩
    · cases he

/-- A step without a cable that feeds another, and a step between them that needs none. -/
def waitingSteps : List (Change Double) :=
  [.addShape (.step "f" [⟨"x", .none⟩] [⟨"y", .none⟩] Point.origin),
   .addShape (.step "h" [] [] Point.origin),
   .addShape (.step "g" [⟨"x", .none⟩] [] Point.origin),
   .connect ⟨⟨0⟩, .output, 0⟩ ⟨⟨2⟩, .input, 0⟩]

theorem compute_waitingSteps :
    ((blank.after waitingSteps).Reachable ∧
      compute (blank.after waitingSteps) = .error (.indeterminate ["f", "g"])) ∧
    Unplaced (blank.after waitingSteps) ["f", "g"] := by
  have hreach : (blank.after waitingSteps).Reachable := by
    refine ⟨_, ?_, rfl⟩
    simp [waitingSteps, Change.Built, Shape.Built.step]
  have hafter : blank.after waitingSteps =
      (blank.after (waitingSteps.take 3)).join ⟨⟨0⟩, .output, 0⟩ ⟨⟨2⟩, .input, 0⟩ := by
    rw [← run_connect_of_successors_eq_nil rfl rfl rfl rfl rfl rfl (by decide) rfl]
    rfl
  have herror : compute (blank.after waitingSteps) = .error (.indeterminate ["f", "g"]) := by
    rw [hafter]
    rfl
  obtain ⟨labels, he, hlabels⟩ := (compute_eq_error_iff hreach).2.1 _ herror
  cases he
  exact ⟨⟨hreach, herror⟩, hlabels⟩

end Phases

end Patchbay
