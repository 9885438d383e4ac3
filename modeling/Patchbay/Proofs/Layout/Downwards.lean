import Patchbay.Proofs.Layout.Layers

/-!
# Cables in a layout

Each layer is placed below the one before, so that a cable should run from a layer to a later one.
Every cable that begins or ends at a step does, since its ends have levels. An output that an input
feeds has none. It stands in the first layer, where it may be beside the input
(`not_downwards_inputIntoOutput`).
-/

namespace Patchbay

namespace Layout

open Diagram

variable {α : Type} {d : Diagram α} {p : Phases} {first loose : List ShapeId}
  {rest : List (List ShapeId)} {a b id : ShapeId}

theorem Arranged.layerOf?_eq_some_iff (h : Arranged d p first loose rest) {n : Nat} :
    layerOf? (layersOf d p) id = some n ↔ InLayer (layersOf d p) id n :=
  Layout.layerOf?_eq_some_iff (h.flatten_eq ▸ h.nodup)

/-- Shapes of different levels are in different layers. -/
theorem Arranged.layerOf?_lt (h : Arranged d p first loose rest) {m n : Nat}
    (ha : Level d p.layers a m) (hb : Level d p.layers b n) (hmn : m < n) :
    ∃ i j, layerOf? (layersOf d p) a = some i ∧ layerOf? (layersOf d p) b = some j ∧ i < j := by
  simp only [h.layerOf?_eq_some_iff]
  rw [h.layersOf_eq]
  exact exists_inLayer_filter ((h.inLayer_iff a m).2 ha).grow ((h.inLayer_iff b n).2 hb).grow hmn

/-- A shape without a level is in the first layer. -/
theorem Arranged.layerOf?_loose (h : Arranged d p first loose rest) (hid : id ∈ loose) :
    layerOf? (layersOf d p) id = some 0 := by
  have hmem : id ∈ first ++ loose := List.mem_append_right _ hid
  have hne : (!(first ++ loose).isEmpty) = true := by simpa using List.ne_nil_of_mem hmem
  rw [h.layerOf?_eq_some_iff, h.layersOf_eq, List.filter_cons, if_pos hne]
  exact ⟨_, rfl, hmem⟩

/-- In a reachable diagram, every cable runs from a layer to a later one, unless it runs from an
input to an output. The output is in the first layer then. -/
theorem downwards_of_compute {d : Diagram Double} (h : d.Reachable) (hp : Phases.compute d = .ok p)
    (hab : d.Feeds a b) :
    ∃ i j, layerOf? (layersOf d p) a = some i ∧ layerOf? (layersOf d p) b = some j ∧
      (¬ (d.has Shape.isInput a = true ∧ d.has Shape.isOutput b = true) → i < j) ∧
      (d.has Shape.isInput a = true ∧ d.has Shape.isOutput b = true → j = 0) := by
  have hs := h.sound
  have hlayered := Phases.layered_of_compute hs hp
  have honce := stepsOnce_layers hs hlayered
  obtain ⟨first, loose, rest, harranged⟩ := exists_arranged hs hlayered
  by_cases hkinds : d.has Shape.isInput a = true ∧ d.has Shape.isOutput b = true
  · have hlive := (harranged.mem_iff honce).2 (hs.feeds_live_left hab)
    obtain ⟨i, hi⟩ := mem_flatten_iff.1 hlive
    have hloose : b ∈ loose := (harranged.mem_loose b).2
      ⟨hs.feeds_live_right hab, fun n => not_level_of_feeds hs honce hab hkinds.1 hkinds.2⟩
    exact ⟨i, 0, harranged.layerOf?_eq_some_iff.2 hi, harranged.layerOf?_loose hloose,
      fun hnot => absurd hkinds hnot, fun _ => rfl⟩
  · obtain ⟨m, n, hm, hn, hmn⟩ := exists_level_of_feeds hs hlayered hab hkinds
    obtain ⟨i, j, hi, hj, hij⟩ := harranged.layerOf?_lt hm hn hmn
    exact ⟨i, j, hi, hj, fun _ => hij, fun hboth => absurd hboth hkinds⟩

/-- The late input stands above the step that it feeds. -/
theorem downwards_lateInput :
    ((blank.after lateInput).Reachable ∧
      Phases.compute (blank.after lateInput) = .ok ⟨[[⟨1⟩], [⟨2⟩]]⟩ ∧
      (blank.after lateInput).Feeds ⟨3⟩ ⟨2⟩) ∧
    ∃ i j, layerOf? (layersOf (blank.after lateInput) ⟨[[⟨1⟩], [⟨2⟩]]⟩) ⟨3⟩ = some i ∧
      layerOf? (layersOf (blank.after lateInput) ⟨[[⟨1⟩], [⟨2⟩]]⟩) ⟨2⟩ = some j ∧
      (¬ ((blank.after lateInput).has Shape.isInput ⟨3⟩ = true ∧
        (blank.after lateInput).has Shape.isOutput ⟨2⟩ = true) → i < j) ∧
      ((blank.after lateInput).has Shape.isInput ⟨3⟩ = true ∧
        (blank.after lateInput).has Shape.isOutput ⟨2⟩ = true → j = 0) := by
  have hfeeds : (blank.after lateInput).Feeds ⟨3⟩ ⟨2⟩ := by
    refine ⟨⟨2⟩, ⟨⟨3⟩, .output, 0⟩, ⟨⟨2⟩, .input, 1⟩, ?_, rfl, rfl⟩
    rw [after_lateInput]
    rfl
  exact ⟨⟨reachable_lateInput, compute_lateInput, hfeeds⟩,
    downwards_of_compute reachable_lateInput compute_lateInput hfeeds⟩

/-- An input that feeds an output. -/
def inputIntoOutput : List (Change Double) :=
  [.addShape (.rawInput "r" Point.origin),
   .addShape (.output "o" none Point.origin),
   .connect ⟨⟨0⟩, .output, 0⟩ ⟨⟨1⟩, .input, 0⟩]

/-- The output is in the layer of the input that feeds it. -/
theorem not_downwards_inputIntoOutput :
    (blank.after inputIntoOutput).Reachable ∧
      Phases.compute (blank.after inputIntoOutput) = .ok ⟨[]⟩ ∧
      ¬ ∀ a b, (blank.after inputIntoOutput).Feeds a b →
        ∃ i j, layerOf? (layersOf (blank.after inputIntoOutput) ⟨[]⟩) a = some i ∧
          layerOf? (layersOf (blank.after inputIntoOutput) ⟨[]⟩) b = some j ∧ i < j := by
  have hreach : (blank.after inputIntoOutput).Reachable := by
    refine ⟨_, ?_, rfl⟩
    simp [inputIntoOutput, Change.Built, Shape.Built.rawInput, Shape.Built.output]
  have hafter : blank.after inputIntoOutput = (blank.after (inputIntoOutput.take 2)).join
      ⟨⟨0⟩, .output, 0⟩ ⟨⟨1⟩, .input, 0⟩ := by
    rw [← run_connect_of_successors_eq_nil rfl rfl rfl rfl rfl rfl (by decide) rfl]
    rfl
  have hfeeds : (blank.after inputIntoOutput).Feeds ⟨0⟩ ⟨1⟩ := by
    refine ⟨⟨0⟩, ⟨⟨0⟩, .output, 0⟩, ⟨⟨1⟩, .input, 0⟩, ?_, rfl, rfl⟩
    rw [hafter]
    rfl
  have hlayers : layersOf (blank.after inputIntoOutput) ⟨[]⟩ = [[⟨0⟩, ⟨1⟩]] := by
    rw [hafter]
    rfl
  refine ⟨hreach, by rw [hafter]; rfl, fun hall => ?_⟩
  obtain ⟨i, j, hi, hj, hij⟩ := hall _ _ hfeeds
  rw [hlayers] at hi hj
  cases hi
  cases hj
  exact Nat.lt_irrefl _ hij

end Layout

end Patchbay
