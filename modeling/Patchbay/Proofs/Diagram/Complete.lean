import Patchbay.Diagram.Integrity
import Patchbay.Proofs.Phases.Stuck

/-!
# Complete diagrams

What the integrity check asks for, one condition a field (`checkIntegrity_eq_ok_iff`), and what it
comes to in a sound diagram: every shape is an input, a step or an output, and the magnets of all of
them have cables.
-/

namespace Patchbay

namespace Diagram

variable {α : Type} {d : Diagram α} {id : ShapeId}

/-! ## The check -/

/-- The diagram is a complete pipeline. -/
structure Complete (d : Diagram α) : Prop where
  nonempty : d.order ≠ []
  inputs_ne_nil : d.inputs ≠ []
  steps_ne_nil : d.steps ≠ []
  outputs_ne_nil : d.outputs ≠ []
  size_eq : d.order.length = d.inputs.length + d.steps.length + d.outputs.length
  input : ∀ s ∈ d.present d.inputs, connectedCount s.outputs = 1
  output : ∀ s ∈ d.present d.outputs, connectedCount s.inputs = 1
  step : ∀ s ∈ d.present d.steps, ∀ m ∈ s.allMagnets, m.isConnected

theorem ite_throw_eq_ok_iff {ε β : Type} {p : Prop} [Decidable p] {e : ε}
    {rest : PUnit → Except ε β} {b : β} :
    (if p then do let r ← throw e; rest r else rest ⟨⟩ : Except ε β) = .ok b ↔
      ¬ p ∧ rest ⟨⟩ = .ok b := by
  by_cases h : p
  · rw [if_pos h]
    exact ⟨fun hb => (by cases hb), fun hb => absurd h hb.1⟩
  · simp [h]

theorem firstLoose?_eq_none_iff {s : Shape α} :
    firstLoose? s = none ↔ ∀ m ∈ s.allMagnets, m.isConnected := by
  simp [firstLoose?]

theorem findSome?_firstLoose? {ss : List (Shape α)} :
    (ss.findSome? fun s => (firstLoose? s).map (s, ·)) = none ↔
      ∀ s ∈ ss, ∀ m ∈ s.allMagnets, m.isConnected := by
  simp [List.findSome?_eq_none_iff, firstLoose?_eq_none_iff]

theorem checkIntegrity_eq_ok_iff : d.checkIntegrity = .ok () ↔ d.Complete := by
  have hcount : ∀ {p : Shape α → Nat} {ss : List (Shape α)},
      ss.find? (p · ≠ 1) = none ↔ ∀ s ∈ ss, p s = 1 := by
    simp
  unfold checkIntegrity
  simp only [ite_throw_eq_ok_iff]
  simp only [isEmpty, size, List.isEmpty_iff, not_ne_iff]
  constructor
  · rintro ⟨h₀, h₁, h₂, h₃, h₄, hrest⟩
    split at hrest
    · cases hrest
    · rename_i hin
      split at hrest
      · cases hrest
      · rename_i hout
        split at hrest
        · cases hrest
        · rename_i hstep
          exact ⟨h₀, h₁, h₂, h₃, h₄, hcount.1 hin, hcount.1 hout, findSome?_firstLoose?.1 hstep⟩
  · intro h
    refine ⟨h.nonempty, h.inputs_ne_nil, h.steps_ne_nil, h.outputs_ne_nil, h.size_eq, ?_⟩
    rw [hcount.2 h.input]
    dsimp only
    rw [hcount.2 h.output]
    dsimp only
    rw [findSome?_firstLoose?.2 h.step]
    rfl

/-! ## In a sound diagram -/

theorem mem_present {ids : List ShapeId} {s : Shape α} (hid : id ∈ ids)
    (hs : d.shape? id = some s) : s ∈ d.present ids :=
  List.mem_filterMap.2 ⟨id, hid, hs⟩

/-- Every magnet of every step has a cable. -/
theorem Complete.step_magnet (h : d.Complete) {t : Terminal} {m : Magnet α}
    (hid : t.shape ∈ d.steps) (hm : d.magnet? t = some m) : m.cables ≠ [] := by
  obtain ⟨s, hs, hi⟩ := Option.bind_eq_some_iff.1 hm
  have hmem : m ∈ s.allMagnets := by
    cases hside : t.side <;> rw [hside] at hi
    · exact List.mem_append_left _ (List.mem_of_getElem? hi)
    · exact List.mem_append_right _ (List.mem_of_getElem? hi)
  simpa [Magnet.isConnected] using h.step s (mem_present hid hs) m hmem

theorem Complete.cabled (h : d.Complete) : ∀ id ∈ d.steps, Phases.Cabled d id :=
  fun _ hid _ _ hm => h.step_magnet hid hm

theorem exists_isConnected_of_connectedCount {ms : List (Magnet α)} (h : connectedCount ms = 1) :
    ∃ m ∈ ms, m.cables ≠ [] := by
  obtain ⟨m, hm, hc⟩ := List.countP_pos_iff.1 (Nat.lt_of_lt_of_eq Nat.zero_lt_one h.symm)
  exact ⟨m, hm, by simpa [Magnet.isConnected] using hc⟩

/-- Three properties that exclude each other divide a list into those that have one of them and the
rest. -/
theorem length_eq_add_of_exclusive {β : Type} {p q r : β → Bool} {l : List β}
    (hpq : ∀ x, p x = true → q x = false ∧ r x = false) (hqr : ∀ x, q x = true → r x = false) :
    l.length = (l.filter p).length + (l.filter q).length + (l.filter r).length +
      (l.filter fun x => !p x && !q x && !r x).length := by
  induction l with
  | nil => rfl
  | cons x l ih =>
    simp only [List.filter_cons, List.length_cons]
    by_cases hp : p x
    · obtain ⟨hq, hr⟩ := hpq x hp
      simp [hp, hq, hr]
      omega
    · by_cases hq : q x
      · simp [hp, hq, hqr x hq]
        omega
      · by_cases hr : r x <;> simp [hp, hq, hr] <;> omega

/-- Such properties take up all of the list just when the numbers add up. -/
theorem length_eq_add_iff {β : Type} {p q r : β → Bool} {l : List β}
    (hpq : ∀ x, p x = true → q x = false ∧ r x = false) (hqr : ∀ x, q x = true → r x = false) :
    l.length = (l.filter p).length + (l.filter q).length + (l.filter r).length ↔
      ∀ x ∈ l, p x = true ∨ q x = true ∨ r x = true := by
  have hall := length_eq_add_of_exclusive (l := l) hpq hqr
  have hnil : l.length = (l.filter p).length + (l.filter q).length + (l.filter r).length ↔
      l.filter (fun x => !p x && !q x && !r x) = [] := by
    rw [← List.length_eq_zero_iff]
    omega
  rw [hnil, List.filter_eq_nil_iff]
  refine forall₂_congr fun x _ => ?_
  cases p x <;> cases q x <;> cases r x <;> simp

/-- The lists of inputs, steps and outputs hold all shapes just when there is no other kind. -/
theorem ShapesListed.length_order_iff (h : d.ShapesListed []) :
    d.order.length = d.inputs.length + d.steps.length + d.outputs.length ↔
      ∀ id s, d.shape? id = some s → s.isInput ∨ s.isStep ∨ s.isOutput := by
  rw [h.inputs_eq, h.steps_eq, h.outputs_eq, length_eq_add_iff
    (fun x hx => ⟨not_isStep_of_isInput hx, not_isOutput_of_isInput hx⟩)
    (fun x hx => not_isOutput_of_isStep hx)]
  constructor
  · intro hkinds id s hs
    have hid : id ∈ d.order := (h.mem_order id).2 ⟨by simp [body?, hs], by simp⟩
    simpa [has, hs] using hkinds id hid
  · intro hkinds id hid
    obtain ⟨hlive, -⟩ := (h.mem_order id).1 hid
    rw [isSome_body?] at hlive
    obtain ⟨s, hs⟩ := Option.isSome_iff_exists.1 hlive
    simpa [has, hs] using hkinds id s hs

/-- There are inputs, steps and outputs only. -/
theorem Complete.isInput_or (h : d.Complete) (hl : d.ShapesListed []) {s : Shape α}
    (hs : d.shape? id = some s) : s.isInput ∨ s.isStep ∨ s.isOutput :=
  hl.length_order_iff.1 h.size_eq id s hs

variable [Scalar α]

/-- An output has one magnet, which has a cable. -/
theorem Complete.output_magnet (h : d.Complete) (hs : d.Sound []) {s : Shape α}
    (hid : d.shape? id = some s) (hout : s.isOutput) :
    ∃ m, s.inputs = [m] ∧ s.kind = .output m.datatype ∧ m.cables ≠ [] := by
  have hmem : id ∈ d.outputs := hs.mem_outputs.2 (has_iff.2 ⟨s, hid, hout⟩)
  obtain ⟨m, hm, hne⟩ := exists_isConnected_of_connectedCount
    (h.output s (mem_present hmem hid))
  obtain ⟨t, hk⟩ := Shape.isOutput_iff.1 hout
  obtain ⟨n, hn, rfl⟩ := (hs.conforming.shape hid).inputs_of_output hk
  rw [hn, List.mem_singleton] at hm
  subst hm
  exact ⟨m, hn, hk, hne⟩

end Diagram

end Patchbay
