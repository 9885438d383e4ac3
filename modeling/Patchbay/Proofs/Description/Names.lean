import Patchbay.Description.Build
import Patchbay.Proofs.Diagram.Consists

/-!
# Names that denote one thing

A description names what its cables join, and building a diagram from it looks the names up. A
look-up succeeds just when one thing has the name (`magnetNamed_eq_ok_iff`, `input_eq_ok_iff`). A
diagram is `Unambiguous` if all that its cables join could be found by name.
-/

namespace Patchbay

namespace Diagram

variable {α : Type} {d d' : Diagram α} {id : ShapeId} {s t : Terminal}

/-! ## Unambiguous diagrams -/

/-- No other magnet on that side of the shape has the label of this one. -/
def Sole (d : Diagram α) (t : Terminal) : Prop :=
  ∀ j m n, d.magnet? t = some m → d.magnet? ⟨t.shape, t.side, j⟩ = some n → n.label = m.label →
    j = t.index

/-- No other input of the pipeline has the label of this one. -/
def SoleInput (d : Diagram α) (id : ShapeId) : Prop :=
  ∀ i a b, d.body? id = some a → d.body? i = some b → d.has Shape.isInput i → b.label = a.label →
    i = id

/-- A cable that leaves the magnet can say so by names. -/
structure Nameable (d : Diagram α) (s : Terminal) : Prop where
  sole : d.Sole s
  input : d.has Shape.isInput s.shape → d.SoleInput s.shape

/-- Labels tell apart all that cables join: magnets on their side of a shape, and inputs of the
pipeline from each other. -/
structure Unambiguous (d : Diagram α) : Prop where
  source : ∀ {c s t}, d.ends? c = some (s, some t) → d.Nameable s
  dest : ∀ {c s t}, d.ends? c = some (s, some t) → d.Sole t

/-- The cable that has landed at a magnet, if there is one, can be described by names. -/
def Named (d : Diagram α) (t : Terminal) : Prop :=
  ∀ c s, d.ends? c = some (s, some t) → d.Nameable s ∧ d.Sole t

theorem unambiguous_iff : d.Unambiguous ↔ ∀ t, d.Named t :=
  ⟨fun h _ _ _ hc => ⟨h.source hc, h.dest hc⟩,
    fun h => ⟨fun hc => (h _ _ _ hc).1, fun hc => (h _ _ _ hc).2⟩⟩

theorem Wired.named_iff (h : d.Wired) {c : CableId} (hc : d.ends? c = some (s, some t)) :
    d.Named t ↔ d.Nameable s ∧ d.Sole t := by
  refine ⟨fun hn => hn c s hc, fun hn c' s' hc' => ?_⟩
  -- no other cable has landed there
  have hsame : c' = c := h.eq_of_touches_input (touches_dest hc) (touches_dest hc') (h.dest_side hc)
  rw [hsame, hc] at hc'
  cases hc'
  exact hn

theorem Sole.congr {i : ShapeId} (h : d.Sole t) (hb : d'.body? i = d.body? t.shape) :
    d'.Sole ⟨i, t.side, t.index⟩ := by
  intro j m n hm hn hlabel
  obtain ⟨m', hm', hmc⟩ := exists_magnet_congr hb.symm hm
  obtain ⟨n', hn', hnc⟩ := exists_magnet_congr hb.symm hn
  have hm_label := congrArg Magnet.label hmc
  have hn_label := congrArg Magnet.label hnc
  exact h j m' n' hm' hn' (hn_label.trans (hlabel.trans hm_label.symm))

/-- An input keeps its label to itself in a diagram whose inputs are all copies of inputs. -/
theorem SoleInput.map {f : ShapeId → ShapeId} (h : d.SoleInput id)
    (hid : d'.body? (f id) = d.body? id)
    (hcopy : ∀ i, d'.has Shape.isInput i → ∃ j, f j = i ∧ d'.body? i = d.body? j) :
    d'.SoleInput (f id) := by
  intro i a b ha hi hin hlabel
  obtain ⟨j, rfl, hj⟩ := hcopy i hin
  rw [has_congr bodily_isInput hj] at hin
  rw [h j a b (hid ▸ ha) (hj ▸ hi) hin hlabel]

/-! ## Shapes with one magnet -/

section

variable [Scalar α] {m : Magnet α}

theorem Conforming.index_eq_zero (h : d.Conforming) (hk : d.has Shape.isStep t.shape = false)
    (hm : d.magnet? t = some m) : t.index = 0 := by
  obtain ⟨a, ha, hi⟩ := Option.bind_eq_some_iff.1 hm
  rw [has_of_shape? ha] at hk
  have hlen := (h.shape ha).length_magnets hk t.side
  have hlt := (List.getElem?_eq_some_iff.1 hi).1
  omega

/-- Only steps have magnets that could be mixed up. -/
theorem Conforming.sole (h : d.Conforming) (hk : d.has Shape.isStep t.shape = false) :
    d.Sole t := by
  intro j m n hm hn _
  rw [h.index_eq_zero hk hm]
  exact h.index_eq_zero (t := ⟨t.shape, t.side, j⟩) hk hn

end

/-! ## Growing -/

/-- Shapes may have come, but no inputs of the pipeline. -/
def Grows (d d' : Diagram α) : Prop :=
  ∀ i, d'.body? i = d.body? i ∨ d.body? i = none ∧ d'.has Shape.isInput i = false

theorem Grows.body? (h : d.Grows d') (hlive : (d.body? id).isSome) : d'.body? id = d.body? id := by
  refine (h id).resolve_right fun hnew => ?_
  simp [hnew.1] at hlive

theorem Grows.isInput (h : d.Grows d') (hin : d'.has Shape.isInput id) :
    d'.body? id = d.body? id := by
  refine (h id).resolve_right fun hnew => ?_
  simp [hnew.2] at hin

theorem grows_join [Scalar α] (d : Diagram α) (s t : Terminal) : d.Grows (d.join s t) :=
  fun i => .inl (body?_join d s t i)

theorem grows_addShape (d : Diagram α) {a : Shape α} (ha : a.isInput = false) :
    d.Grows (d.addShape a) := by
  intro i
  rw [body?_addShape, body?_placeShape]
  split
  · rename_i hi
    subst hi
    refine .inr ⟨body?_eq_none_iff.2 (shape?_nextShape d), ?_⟩
    rw [← ha]
    exact has_of_body? bodily_isInput (by rw [body?_addShape, body?_placeShape, if_pos rfl])
  · exact .inl rfl

theorem Sole.grow (h : d.Sole t) (hg : d.Grows d') (hlive : (d.body? t.shape).isSome) :
    d'.Sole t :=
  h.congr (hg.body? hlive)

theorem Nameable.grow (h : d.Nameable s) (hg : d.Grows d') (hlive : (d.body? s.shape).isSome) :
    d'.Nameable s := by
  refine ⟨h.sole.grow hg hlive, fun hin => ?_⟩
  have hsame := hg.body? hlive
  rw [has_congr bodily_isInput hsame] at hin
  exact (h.input hin).map (f := fun i => i) hsame fun i hi => ⟨i, rfl, hg.isInput hi⟩

/-- A diagram stays unambiguous if all its new cables join what can be found by name. -/
theorem Unambiguous.grow (h : d.Unambiguous) (hl : d.Linked) (hg : d.Grows d')
    (hnew : ∀ c s t, d'.ends? c = some (s, some t) →
      d.ends? c = some (s, some t) ∨ d'.Nameable s ∧ d'.Sole t) : d'.Unambiguous := by
  constructor
  · intro c s t hc
    rcases hnew c s t hc with hold | ⟨hs, -⟩
    · exact (h.source hold).grow hg (hl.live (touches_source hold))
    · exact hs
  · intro c s t hc
    rcases hnew c s t hc with hold | ⟨-, ht⟩
    · exact (h.dest hold).grow hg (hl.live (touches_dest hold))
    · exact ht

theorem Unambiguous.addShape (h : d.Unambiguous) (hl : d.Linked) {a : Shape α}
    (ha : a.isInput = false) : (d.addShape a).Unambiguous :=
  h.grow hl (grows_addShape d ha) fun c s t hc => .inl (by rwa [ends?_addShape] at hc)

theorem Unambiguous.join [Scalar α] (h : d.Unambiguous) (hl : d.Linked) (hs : d.Nameable s)
    (ht : d.Sole t) (hlive : (d.body? s.shape).isSome ∧ (d.body? t.shape).isSome) :
    (d.join s t).Unambiguous := by
  have hg := grows_join d s t
  refine h.grow hl hg fun c s' t' hc => ?_
  rw [ends?_join] at hc
  split at hc
  · cases hc
    exact .inr ⟨hs.grow hg hlive.1, ht.grow hg hlive.2⟩
  · exact .inl hc

end Diagram

namespace Description

open Diagram Running

variable {α : Type} {d d' : Diagram α} {id : ShapeId} {s t : Terminal} {dir : Directory}

/-! ## Looking names up -/

/-- The look-up of a magnet succeeds just when it is the only one with its label. -/
theorem magnetNamed_eq_ok_iff {side : Side} {label : String} :
    magnetNamed d id side label = .ok t ↔ (t.shape = id ∧ t.side = side) ∧
      (∃ m, d.magnet? t = some m ∧ m.label = label) ∧ d.Sole t := by
  unfold magnetNamed
  cases hs : d.shape? id with
  | none =>
    refine ⟨fun h => (by cases h), ?_⟩
    rintro ⟨⟨rfl, -⟩, ⟨m, hm, -⟩, -⟩
    simp [magnet?_eq, hs] at hm
  | some a =>
    have hmag : ∀ j, d.magnet? ⟨id, side, j⟩ = (a.magnets side)[j]? :=
      fun j => magnet?_of_shape? (t := ⟨id, side, j⟩) hs
    constructor
    · intro h
      dsimp only at h
      split at h
      · rename_i m i hfound
        cases h
        obtain ⟨⟨hm, hlabel⟩, hsole⟩ := filter_zipIdx_eq_singleton_iff
          (p := fun m : Magnet α => decide (m.label = label)).1 hfound
        have hlabel : m.label = label := of_decide_eq_true hlabel
        refine ⟨⟨rfl, rfl⟩, ⟨m, (hmag i).trans hm, hlabel⟩, fun j m' n hm' hn hsame => ?_⟩
        rw [hmag, hm] at hm'
        cases hm'
        exact hsole j n (hmag j ▸ hn) (decide_eq_true (hsame.trans hlabel))
      · cases h
      · cases h
    · rintro ⟨⟨rfl, rfl⟩, ⟨m, hm, hlabel⟩, hsole⟩
      have hfound : (a.magnets t.side).zipIdx.filter (fun y => decide (y.1.label = label)) =
          [(m, t.index)] := by
        refine filter_zipIdx_eq_singleton_iff
          (p := fun m : Magnet α => decide (m.label = label)).2
          ⟨⟨(hmag t.index).symm.trans hm, decide_eq_true hlabel⟩, fun j n hn hsame => ?_⟩
        exact hsole j m n hm ((hmag j).trans hn) ((of_decide_eq_true hsame).trans hlabel.symm)
      dsimp only
      rw [hfound]

/-- The look-up of an input succeeds just when it is the only one with its name. -/
theorem Directory.input_eq_ok_iff (h : dir.inputs.Nodup) {name : String} :
    dir.input name = .ok id ↔
      (name, id) ∈ dir.inputs ∧ ∀ i, (name, i) ∈ dir.inputs → i = id := by
  have hiff := fun x => filter_eq_singleton_iff (p := fun x : String × ShapeId =>
    decide (x.1 = name)) h (x := x)
  unfold Directory.input
  constructor
  · intro hok
    split at hok
    · rename_i label i hfound
      cases hok
      obtain ⟨⟨hmem, hname⟩, hall⟩ := (hiff _).1 hfound
      have hname : label = name := of_decide_eq_true hname
      subst hname
      exact ⟨hmem, fun i hi => congrArg Prod.snd (hall (label, i) hi (decide_eq_true rfl))⟩
    · cases hok
    · cases hok
  · rintro ⟨hmem, hall⟩
    have hfound := (hiff (name, id)).2 ⟨⟨hmem, decide_eq_true rfl⟩, fun y hy hname => ?_⟩
    · rw [hfound]
    · have hname : y.1 = name := of_decide_eq_true hname
      exact Prod.ext hname (hall y.2 (hname ▸ hy))

/-- The look-up of a step succeeds if it is the only one with its number. -/
theorem Directory.step_eq_ok {n : Nat} (hmem : (n, id) ∈ dir.steps)
    (hall : ∀ i, (n, i) ∈ dir.steps → i = id) : dir.step n = .ok id := by
  unfold Directory.step
  cases hfound : dir.steps.find? (fun x => decide (x.1 = n)) with
  | none => exact absurd (decide_eq_true rfl) (List.find?_eq_none.1 hfound (n, id) hmem)
  | some x =>
    have hnumber : x.1 = n := of_decide_eq_true
      (List.find?_some (p := fun x : Nat × ShapeId => decide (x.1 = n)) hfound)
    have hx : (n, x.2) ∈ dir.steps := hnumber ▸ List.mem_of_find?_eq_some hfound
    exact congrArg Except.ok (hall x.2 hx)

theorem Directory.mem_of_step_eq_ok {n : Nat} (h : dir.step n = .ok id) : (n, id) ∈ dir.steps := by
  unfold Directory.step at h
  split at h
  · rename_i number i hfound
    cases h
    have hdecide : decide (number = n) = true :=
      List.find?_some (p := fun x : Nat × ShapeId => decide (x.1 = n)) hfound
    have hnumber : number = n := of_decide_eq_true hdecide
    exact hnumber ▸ List.mem_of_find?_eq_some hfound
  · cases h

/-! ## Directories -/

/-- The directory lists the inputs of the diagram by their labels, and none but steps as steps. -/
structure Directory.Lists (dir : Directory) (d : Diagram α) : Prop where
  nodup : dir.inputs.Nodup
  input : ∀ {name id}, (name, id) ∈ dir.inputs ↔
    d.has Shape.isInput id = true ∧ ∃ b, d.body? id = some b ∧ b.label = name
  step : ∀ {n id}, (n, id) ∈ dir.steps → d.has Shape.isStep id = true

theorem Directory.Lists.grow (h : dir.Lists d) (hg : d.Grows d') : dir.Lists d' where
  nodup := h.nodup
  input := by
    intro name id
    rw [h.input]
    constructor
    · rintro ⟨hin, hb⟩
      have hsame := hg.body? (isSome_body?_of_has hin)
      rw [has_congr bodily_isInput hsame, hsame]
      exact ⟨hin, hb⟩
    · rintro ⟨hin, hb⟩
      have hsame := hg.isInput hin
      rw [← has_congr bodily_isInput hsame, ← hsame]
      exact ⟨hin, hb⟩
  step hid := by
    have hsame := hg.body? (isSome_body?_of_has (h.step hid))
    rw [has_congr bodily_isStep hsame]
    exact h.step hid

/-- An input of the diagram is found by its label if no other input has it. -/
theorem Directory.Lists.input_eq_ok_iff (h : dir.Lists d) {name : String} :
    dir.input name = .ok id ↔ d.has Shape.isInput id = true ∧
      (∃ b, d.body? id = some b ∧ b.label = name) ∧ d.SoleInput id := by
  rw [Directory.input_eq_ok_iff h.nodup, h.input, and_assoc]
  refine and_congr_right fun _ => and_congr_right ?_
  rintro ⟨a, ha, rfl⟩
  constructor
  · intro hall i a' b ha' hb hin hlabel
    rw [ha] at ha'
    cases ha'
    exact hall i (h.input.2 ⟨hin, b, hb, hlabel⟩)
  · intro hsole i hi
    obtain ⟨hin, b, hb, hlabel⟩ := h.input.1 hi
    exact hsole i a b ha hb hin hlabel

/-! ## Sources -/

theorem sourceMagnet_zero_eq_ok_iff {name : String} :
    sourceMagnet d dir 0 name = .ok s ↔ ∃ i, dir.input name = .ok i ∧ s = ⟨i, .output, 0⟩ := by
  rw [sourceMagnet, if_pos rfl]
  cases dir.input name with
  | error e => exact ⟨fun h => (by cases h), fun ⟨i, hi, _⟩ => (by cases hi)⟩
  | ok i =>
    constructor
    · intro h
      cases h
      exact ⟨i, rfl, rfl⟩
    · rintro ⟨j, hj, rfl⟩
      cases hj
      rfl

theorem sourceMagnet_succ_eq_ok_iff {n : Nat} {name : String} :
    sourceMagnet d dir (n + 1) name = .ok s ↔
      ∃ i, dir.step (n + 1) = .ok i ∧ magnetNamed d i .output name = .ok s := by
  rw [sourceMagnet, if_neg (Nat.succ_ne_zero n)]
  cases dir.step (n + 1) with
  | error e => exact ⟨fun h => (by cases h), fun ⟨i, hi, _⟩ => (by cases hi)⟩
  | ok i =>
    refine ⟨fun h => ⟨i, rfl, h⟩, ?_⟩
    rintro ⟨j, hj, h⟩
    cases hj
    exact h

theorem nameable_iff_sole (h : d.has Shape.isStep s.shape = true) : d.Nameable s ↔ d.Sole s := by
  refine ⟨fun hn => hn.sole, fun hn => ⟨hn, fun hin => ?_⟩⟩
  rw [not_isStep_of_isInput hin] at h
  cases h

variable [Scalar α]

theorem nameable_iff_soleInput (hc : d.Conforming) (h : d.has Shape.isInput s.shape = true) :
    d.Nameable s ↔ d.SoleInput s.shape :=
  ⟨fun hn => hn.input h, fun hn => ⟨hc.sole (not_isStep_of_isInput h), fun _ => hn⟩⟩

/-- What has been found as a source can be found by name. -/
theorem Directory.Lists.nameable (h : dir.Lists d) (hc : d.Conforming) {step : Nat} {name : String}
    (hok : sourceMagnet d dir step name = .ok s) :
    d.Nameable s ∧ (d.body? s.shape).isSome := by
  cases step with
  | zero =>
    obtain ⟨i, hi, rfl⟩ := sourceMagnet_zero_eq_ok_iff.1 hok
    obtain ⟨hin, -, hsole⟩ := h.input_eq_ok_iff.1 hi
    exact ⟨(nameable_iff_soleInput hc hin).2 hsole, isSome_body?_of_has hin⟩
  | succ n =>
    obtain ⟨i, hi, hmagnet⟩ := sourceMagnet_succ_eq_ok_iff.1 hok
    obtain ⟨⟨rfl, -⟩, -, hsole⟩ := magnetNamed_eq_ok_iff.1 hmagnet
    have hstep := h.step (mem_of_step_eq_ok hi)
    exact ⟨(nameable_iff_sole hstep).2 hsole, isSome_body?_of_has hstep⟩

end Description

end Patchbay
