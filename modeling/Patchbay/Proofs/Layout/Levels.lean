import Mathlib.Data.Nat.Find
import Patchbay.Layout.Layers
import Patchbay.Proofs.Phases

/-!
# Levels

Where the shapes stand in a layout, said without building it. A step stands one level below the
index of its phase, so that there is a level above the first phase. An output stands below the step
that feeds it, and an input above the first phase that it feeds. Other shapes have no level.

A cable that begins or ends at a step runs from a level to a lower one (`exists_level_of_feeds`).
The only other cables run from an input to an output, which has no level then
(`not_level_of_feeds`).
-/

namespace Patchbay

namespace Layout

open Diagram

/-! ## Layers -/

section Layers

variable {layers : List (List ShapeId)} {layer : List ShapeId} {a b id : ShapeId} {m n : Nat}

/-- The layer of that index holds the shape. -/
def InLayer (layers : List (List ShapeId)) (id : ShapeId) (n : Nat) : Prop :=
  ∃ layer, layers[n]? = some layer ∧ id ∈ layer

def layerOf? (layers : List (List ShapeId)) (id : ShapeId) : Option Nat :=
  layers.findIdx? fun layer => id ∈ layer

theorem InLayer.lt_length (h : InLayer layers id n) : n < layers.length := by
  obtain ⟨layer, hlayer, -⟩ := h
  exact (List.getElem?_eq_some_iff.1 hlayer).1

theorem mem_flatten_iff : id ∈ layers.flatten ↔ ∃ n, InLayer layers id n := by
  rw [List.mem_flatten]
  constructor
  · rintro ⟨layer, hlayer, hid⟩
    obtain ⟨n, hn⟩ := List.mem_iff_getElem?.1 hlayer
    exact ⟨n, layer, hn, hid⟩
  · rintro ⟨n, layer, hn, hid⟩
    exact ⟨layer, List.mem_of_getElem? hn, hid⟩

theorem inLayer_concat :
    InLayer (layers ++ [layer]) id n ↔ InLayer layers id n ∨ n = layers.length ∧ id ∈ layer := by
  unfold InLayer
  rcases Nat.lt_trichotomy n layers.length with hlt | rfl | hgt
  · rw [List.getElem?_append_left hlt]
    simp [Nat.ne_of_lt hlt]
  · simp
  · rw [List.getElem?_eq_none (by simp; omega), List.getElem?_eq_none (Nat.le_of_lt hgt)]
    simp [Nat.ne_of_gt hgt]

/-- No shape is in two layers. -/
theorem InLayer.unique (hnodup : layers.flatten.Nodup) (hm : InLayer layers id m)
    (hn : InLayer layers id n) : m = n := by
  obtain ⟨l, hl, hidl⟩ := hm
  obtain ⟨l', hl', hidl'⟩ := hn
  have htwice := List.nodup_iff_sublist.1 hnodup id
  rcases Nat.lt_trichotomy m n with hlt | heq | hgt
  · exact absurd (Phases.pair_sublist_flatten hl hl' hlt hidl hidl') htwice
  · exact heq
  · exact absurd (Phases.pair_sublist_flatten hl' hl hgt hidl' hidl) htwice

theorem layerOf?_eq_some_iff (hnodup : layers.flatten.Nodup) :
    layerOf? layers id = some n ↔ InLayer layers id n := by
  have hfound : ∀ {k}, layerOf? layers id = some k → InLayer layers id k := by
    intro k hk
    obtain ⟨hlt, hmem, -⟩ := List.findIdx?_eq_some_iff_getElem.1 hk
    exact ⟨layers[k], List.getElem?_eq_getElem hlt, by simpa using hmem⟩
  refine ⟨hfound, fun h => ?_⟩
  cases hk : layerOf? layers id with
  | none =>
    obtain ⟨layer, hlayer, hid⟩ := h
    have hnone := List.findIdx?_eq_none_iff.1 hk layer (List.mem_of_getElem? hlayer)
    simp [hid] at hnone
  | some k => rw [(hfound hk).unique hnodup h]

/-- A first layer that holds more takes no shape from its layer. -/
theorem InLayer.grow {first more : List ShapeId} (h : InLayer (first :: layers) id n) :
    InLayer ((first ++ more) :: layers) id n := by
  obtain ⟨layer, hlayer, hid⟩ := h
  cases n with
  | zero =>
    obtain rfl := Option.some.inj hlayer
    exact ⟨_, rfl, List.mem_append_left _ hid⟩
  | succ n => exact ⟨layer, hlayer, hid⟩

/-- Without the empty layers, the layer of one shape is still above that of the other. -/
theorem exists_inLayer_filter (ha : InLayer layers a m) (hb : InLayer layers b n) (hmn : m < n) :
    ∃ i j, InLayer (layers.filter (!·.isEmpty)) a i ∧ InLayer (layers.filter (!·.isEmpty)) b j ∧
      i < j := by
  induction layers generalizing m n with
  | nil => exact absurd ha.lt_length (by simp)
  | cons l ls ih =>
    obtain ⟨n, rfl⟩ : ∃ k, n = k + 1 := ⟨n - 1, by omega⟩
    cases m with
    | zero =>
      obtain ⟨_, hl, hal⟩ := ha
      cases hl
      have hbelow : b ∈ (ls.filter (!·.isEmpty)).flatten :=
        List.flatten_filter_not_isEmpty (L := ls) ▸ mem_flatten_iff.2 ⟨n, hb⟩
      obtain ⟨j, hj⟩ := mem_flatten_iff.1 hbelow
      have hne : (!l.isEmpty) = true := by simpa using List.ne_nil_of_mem hal
      rw [List.filter_cons, if_pos hne]
      exact ⟨0, j + 1, ⟨l, rfl, hal⟩, hj, Nat.succ_pos j⟩
    | succ m =>
      obtain ⟨i, j, hi, hj, hij⟩ := ih ha hb (Nat.lt_of_succ_lt_succ hmn)
      rw [List.filter_cons]
      split
      · exact ⟨i + 1, j + 1, hi, hj, Nat.succ_lt_succ hij⟩
      · exact ⟨i, j, hi, hj, hij⟩

end Layers

/-! ## Levels -/

variable {α : Type} {d : Diagram α} {phases : List (List ShapeId)} {phase : List ShapeId}
  {a b id : ShapeId} {m n : Nat}

/-- The level that a shape has on account of the phases. -/
inductive Level (d : Diagram α) (phases : List (List ShapeId)) : ShapeId → Nat → Prop
  | step {id : ShapeId} {n : Nat} : InLayer phases id n → Level d phases id (n + 1)
  | output {a id : ShapeId} {n : Nat} : d.has Shape.isOutput id = true → InLayer phases a n →
      d.Feeds a id → Level d phases id (n + 2)
  | input {id b : ShapeId} {n : Nat} : d.has Shape.isInput id = true → InLayer phases b n →
      d.Feeds id b → (∀ x k, InLayer phases x k → d.Feeds id x → n ≤ k) → Level d phases id n

/-- An input that feeds a step of a phase has a level that is not below the one above the phase. -/
theorem exists_level_of_input (hid : d.has Shape.isInput id = true) (hb : InLayer phases b n)
    (hfeeds : d.Feeds id b) : ∃ m ≤ n, Level d phases id m := by
  classical
  have hex : ∃ k, ∃ x, InLayer phases x k ∧ d.Feeds id x := ⟨n, b, hb, hfeeds⟩
  obtain ⟨x, hx, hidx⟩ := Nat.find_spec hex
  exact ⟨Nat.find hex, Nat.find_min' hex ⟨b, hb, hfeeds⟩,
    .input hid hx hidx fun y k hy hidy => Nat.find_min' hex ⟨y, hy, hidy⟩⟩

/-- What a further phase changes. -/
theorem level_concat : Level d (phases ++ [phase]) id n ↔ Level d phases id n ∨
    (n = phases.length + 1 ∧ id ∈ phase) ∨
    (n = phases.length + 2 ∧ d.has Shape.isOutput id = true ∧ ∃ a ∈ phase, d.Feeds a id) ∨
    (n = phases.length ∧ d.has Shape.isInput id = true ∧ (∃ b ∈ phase, d.Feeds id b) ∧
      ∀ x k, InLayer phases x k → ¬ d.Feeds id x) := by
  constructor
  · intro h
    cases h with
    | step hid =>
      rcases inLayer_concat.1 hid with hold | ⟨rfl, hnew⟩
      · exact .inl (.step hold)
      · exact .inr (.inl ⟨rfl, hnew⟩)
    | output hout ha hfeeds =>
      rcases inLayer_concat.1 ha with hold | ⟨rfl, hnew⟩
      · exact .inl (.output hout hold hfeeds)
      · exact .inr (.inr (.inl ⟨rfl, hout, _, hnew, hfeeds⟩))
    | input hin hb hfeeds hleast =>
      have hleast' := fun x k hx => hleast x k (inLayer_concat.2 (.inl hx))
      rcases inLayer_concat.1 hb with hold | ⟨rfl, hnew⟩
      · exact .inl (.input hin hold hfeeds hleast')
      · refine .inr (.inr (.inr ⟨rfl, hin, ⟨_, hnew, hfeeds⟩, fun x k hx hidx => ?_⟩))
        exact Nat.not_lt.2 (hleast' x k hx hidx) hx.lt_length
  · rintro (h | ⟨rfl, hid⟩ | ⟨rfl, hout, a, ha, hfeeds⟩ | ⟨rfl, hin, ⟨b, hb, hfeeds⟩, hnone⟩)
    · cases h with
      | step hid => exact .step (inLayer_concat.2 (.inl hid))
      | output hout ha hfeeds => exact .output hout (inLayer_concat.2 (.inl ha)) hfeeds
      | input hin hb hfeeds hleast =>
        refine .input hin (inLayer_concat.2 (.inl hb)) hfeeds fun x k hx hidx => ?_
        rcases inLayer_concat.1 hx with hx | ⟨rfl, -⟩
        · exact hleast x k hx hidx
        · exact Nat.le_of_lt hb.lt_length
    · exact .step (inLayer_concat.2 (.inr ⟨rfl, hid⟩))
    · exact .output hout (inLayer_concat.2 (.inr ⟨rfl, ha⟩)) hfeeds
    · refine .input hin (inLayer_concat.2 (.inr ⟨rfl, hb⟩)) hfeeds fun x k hx hidx => ?_
      rcases inLayer_concat.1 hx with hx | ⟨rfl, -⟩
      · exact absurd hidx (hnone x k hx)
      · exact Nat.le_refl _

theorem not_level_nil : ¬ Level d [] id n := by
  intro h
  cases h with
  | step h | output _ h | input _ h => exact Nat.not_lt_zero _ h.lt_length

theorem Level.le (h : Level d phases id n) : n ≤ phases.length + 1 := by
  cases h with
  | step h | output _ h | input _ h =>
    have hlt := h.lt_length
    omega

/-- The outputs that the last phase feeds are below it. -/
theorem level_concat_length : Level d (phases ++ [phase]) id (phases.length + 2) ↔
    d.has Shape.isOutput id = true ∧ ∃ a ∈ phase, d.Feeds a id := by
  rw [level_concat]
  constructor
  · rintro (h | ⟨h, -⟩ | ⟨-, h⟩ | ⟨h, -⟩)
    · have hle := h.le
      omega
    · omega
    · exact h
    · omega
  · exact fun h => .inr (.inr (.inl ⟨rfl, h⟩))

/-- An empty phase gives no shape a level. -/
theorem level_concat_nil : Level d (phases ++ [[]]) id n ↔ Level d phases id n := by
  simp [level_concat]

/-- The phases for which layers are built. An empty one comes behind the last, for the outputs that
it feeds. -/
def builtFor : List (List ShapeId) → List (List ShapeId)
  | [] => []
  | phase :: rest => phase :: rest ++ [[]]

theorem level_builtFor : Level d (builtFor phases) id n ↔ Level d phases id n := by
  cases phases with
  | nil => exact Iff.rfl
  | cons phase rest => exact level_concat_nil

/-- All levels are among the layers that are built. -/
theorem Level.le_builtFor (h : Level d phases id n) : n ≤ (builtFor phases).length := by
  cases phases with
  | nil => exact absurd h not_level_nil
  | cons phase rest => simpa [builtFor] using h.le

theorem filter_builtFor (hne : ∀ phase ∈ phases, phase ≠ []) :
    (builtFor phases).filter (!·.isEmpty) = phases := by
  cases phases with
  | nil => rfl
  | cons phase rest =>
    have hall : (phase :: rest).filter (!·.isEmpty) = phase :: rest :=
      List.filter_eq_self.2 fun l hl => by simpa using hne l hl
    rw [builtFor, List.filter_append, hall]
    exact List.append_nil _

/-- The phases hold steps, each once. -/
structure StepsOnce (d : Diagram α) (phases : List (List ShapeId)) : Prop where
  isStep : ∀ id ∈ phases.flatten, d.has Shape.isStep id = true
  nodup : phases.flatten.Nodup

theorem StepsOnce.of_inLayer (h : StepsOnce d phases) (hid : InLayer phases id n) :
    d.has Shape.isStep id = true :=
  h.isStep id (mem_flatten_iff.2 ⟨n, hid⟩)

/-- Phases up to any point hold steps once if all do. -/
theorem StepsOnce.left {rest : List (List ShapeId)} (h : StepsOnce d (phases ++ rest)) :
    StepsOnce d phases where
  isStep id hid := h.isStep id (by
    rw [List.flatten_append]
    exact List.mem_append_left _ hid)
  nodup := by
    have hnodup := h.nodup
    rw [List.flatten_append] at hnodup
    exact (List.nodup_append'.1 hnodup).1

/-- Which steps there are is all that matters. -/
theorem StepsOnce.congr {phases' : List (List ShapeId)} (h : StepsOnce d phases)
    (heq : phases'.flatten = phases.flatten) : StepsOnce d phases' :=
  ⟨heq ▸ h.isStep, heq ▸ h.nodup⟩

theorem StepsOnce.last (h : StepsOnce d (phases ++ [phase])) :
    (∀ id ∈ phase, d.has Shape.isStep id = true) ∧ phase.Nodup := by
  have hmem : phase ∈ phases ++ [phase] := List.mem_append_right _ (List.mem_singleton_self _)
  exact ⟨fun id hid => h.isStep id (List.mem_flatten_of_mem hmem hid),
    (List.sublist_flatten_of_mem hmem).nodup h.nodup⟩

/-- An input has the level above a phase that it feeds. -/
theorem Level.feeds_of_isInput (h : StepsOnce d phases) (hid : d.has Shape.isInput id = true)
    (hn : Level d phases id n) : ∃ b, InLayer phases b n ∧ d.Feeds id b := by
  cases hn with
  | step hn => simp [not_isInput_of_isStep (h.of_inLayer hn)] at hid
  | output hout => simp [not_isOutput_of_isInput hid] at hout
  | input _ hb hfeeds => exact ⟨_, hb, hfeeds⟩

/-- A shape with a level is there. -/
theorem Level.live (h : StepsOnce d phases) (hn : Level d phases id n) :
    (d.body? id).isSome := by
  cases hn with
  | step hid => exact isSome_body?_of_has (h.of_inLayer hid)
  | output hout => exact isSome_body?_of_has hout
  | input hin => exact isSome_body?_of_has hin

variable [Scalar α]

/-- A shape has one level. -/
theorem Level.unique (hs : d.Sound []) (h : StepsOnce d phases) (hm : Level d phases id m)
    (hn : Level d phases id n) : m = n := by
  have hstep : ∀ {k}, InLayer phases id k → d.has Shape.isOutput id = false ∧
      d.has Shape.isInput id = false := fun hid =>
    ⟨not_isOutput_of_isStep (h.of_inLayer hid), not_isInput_of_isStep (h.of_inLayer hid)⟩
  cases hm with
  | step hid =>
    cases hn with
    | step hid' => rw [hid.unique h.nodup hid']
    | output hout => simp [(hstep hid).1] at hout
    | input hin => simp [(hstep hid).2] at hin
  | output hout ha hfeeds =>
    cases hn with
    | step hid' => simp [(hstep hid').1] at hout
    | output _ ha' hfeeds' =>
      obtain rfl := hs.feeder_unique hout hfeeds hfeeds'
      rw [ha.unique h.nodup ha']
    | input hin => simp [not_isOutput_of_isInput hin] at hout
  | input hin hb hfeeds hleast =>
    cases hn with
    | step hid' => simp [(hstep hid').2] at hin
    | output hout => simp [not_isOutput_of_isInput hin] at hout
    | input _ hb' hfeeds' hleast' =>
      exact Nat.le_antisymm (hleast _ _ hb' hfeeds') (hleast' _ _ hb hfeeds)

/-- Cables run down, but for those from an input to an output. -/
theorem exists_level_of_feeds {p : Phases} (hs : d.Sound []) (hp : Phases.Layered d p)
    (hab : d.Feeds a b) (hnot : ¬ (d.has Shape.isInput a = true ∧ d.has Shape.isOutput b = true)) :
    ∃ m n, Level d p.layers a m ∧ Level d p.layers b n ∧ m < n := by
  have hphase : ∀ {x}, d.has Shape.isStep x = true → ∃ k, InLayer p.layers x k := fun hx =>
    mem_flatten_iff.1 (hp.perm.mem_iff.2 (hs.mem_steps.2 hx))
  obtain ⟨c, s, t, hc, rfl, rfl⟩ := id hab
  rcases hs.kind_of_source hc with ha | ha <;> rcases hs.kind_of_dest hc with hb | hb
  · obtain ⟨j, hj⟩ := hphase hb
    obtain ⟨m, hmj, hm⟩ := exists_level_of_input ha hj hab
    exact ⟨m, j + 1, hm, .step hj, Nat.lt_succ_of_le hmj⟩
  · exact absurd ⟨ha, hb⟩ hnot
  · obtain ⟨i, la, hla, hala⟩ := hphase ha
    obtain ⟨j, lb, hlb, hblb⟩ := hphase hb
    have hdeeper := (hp.depth i la hla _ hala).lt_of_stepFeeds (hp.depth j lb hlb _ hblb)
      ⟨hs.mem_steps.2 ha, hs.mem_steps.2 hb, hab⟩
    exact ⟨i + 1, j + 1, .step ⟨la, hla, hala⟩, .step ⟨lb, hlb, hblb⟩, Nat.succ_lt_succ hdeeper⟩
  · obtain ⟨i, hi⟩ := hphase ha
    exact ⟨i + 1, i + 2, .step hi, .output hb hi hab, Nat.lt_succ_self _⟩

/-- An output that is fed by an input has no level. -/
theorem not_level_of_feeds (hs : d.Sound []) (h : StepsOnce d phases) (hab : d.Feeds a b)
    (ha : d.has Shape.isInput a = true) (hb : d.has Shape.isOutput b = true) :
    ¬ Level d phases b n := by
  intro hn
  cases hn with
  | step hn => simp [not_isOutput_of_isStep (h.of_inLayer hn)] at hb
  | output _ hx hfeeds =>
    obtain rfl := hs.feeder_unique hb hab hfeeds
    simp [not_isInput_of_isStep (h.of_inLayer hx)] at ha
  | input hin => simp [not_isOutput_of_isInput hin] at hb

end Layout

end Patchbay
