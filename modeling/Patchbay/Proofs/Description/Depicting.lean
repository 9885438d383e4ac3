import Patchbay.Double
import Patchbay.Proofs.Description.Laying
import Patchbay.Proofs.Sorting

/-!
# What a built diagram shows

A diagram shows a description if its shapes and cables can be matched one to one with what is
described, so that every cable joins the magnets that it is said to join (`Key.Depicts`). Whatever
is built shows its description in this sense (`Made.depicts`).

A number of a step means the first step that has it. If several steps have one number, the others
are never meant, not even by their own cables, and building does not complain of that
(`misplaced_sameNumbers`).
-/

namespace Patchbay

namespace Description

open Diagram Running
open List (Forall₂)

/-! ## Matching -/

/-- The entries of a list with consecutive numbers, made into names. -/
def entries {β ι : Type} (name : Nat → ι) (start : Nat) (xs : List β) : List (β × ι) :=
  (xs.zipIdx start).map fun x => (x.1, name x.2)

section Entries

variable {β ι : Type} {name : Nat → ι} {start : Nat} {xs : List β} {x : β} {i : ι}

theorem map_fst_entries (name : Nat → ι) (start : Nat) (xs : List β) :
    (entries name start xs).map Prod.fst = xs := by
  rw [entries, List.map_map]
  exact List.zipIdx_map_fst start xs

theorem map_snd_entries (name : Nat → ι) (start : Nat) (xs : List β) :
    (entries name start xs).map Prod.snd = (List.range' start xs.length).map name := by
  rw [entries, List.map_map, ← List.zipIdx_map_snd, List.map_map]
  rfl

theorem mem_entries :
    (x, i) ∈ entries name start xs ↔ ∃ n, xs[n]? = some x ∧ i = name (start + n) := by
  simp only [entries, List.mem_map, Prod.exists, List.mk_mem_zipIdx_iff_le_and_getElem?_sub,
    Prod.mk.injEq]
  constructor
  · rintro ⟨y, n, ⟨hle, hy⟩, rfl, rfl⟩
    exact ⟨n - start, hy, by rw [Nat.add_sub_cancel' hle]⟩
  · rintro ⟨n, hn, rfl⟩
    exact ⟨x, start + n, ⟨Nat.le_add_right _ n, by rwa [Nat.add_sub_cancel_left]⟩, rfl, rfl⟩

end Entries

variable {α : Type}

def cables (p : Description α) : List (Step α × CableIn) := cablesOf p.steps

namespace Key

def shapes (v : Key α) : List ShapeId :=
  v.inputs.map Prod.snd ++ v.steps.map Prod.snd ++ v.outputs.map (·.2.1)

def wires (v : Key α) : List CableId := v.cables.map Prod.snd ++ v.outputs.map (·.2.2)

/-- The key has an entry for each input, step, cable and output that is described. -/
structure Lists (v : Key α) (p : Description α) : Prop where
  inputs : (v.inputs.map Prod.fst).Perm p.inputs
  steps : (v.steps.map Prod.fst).Perm p.steps
  cables : (v.cables.map Prod.fst).Perm p.cables
  outputs : (v.outputs.map Prod.fst).Perm p.outputs

variable [Scalar α]

/-- The diagram shows what is described. There is exactly one shape for each input, step and output,
and exactly one cable for each cable and each output, and it joins the magnets that are named. -/
structure Depicts (v : Key α) (settings : Settings α) (p : Description α) (d : Diagram α) :
    Prop extends v.Stands settings d, v.Lists p where
  nodup_shapes : v.shapes.Nodup
  mem_shapes : ∀ id, id ∈ v.shapes ↔ (d.body? id).isSome
  nodup_wires : v.wires.Nodup
  mem_wires : ∀ c, c ∈ v.wires ↔ (d.ends? c).isSome
  cable : ∀ {x c}, (x, c) ∈ v.cables → ∃ s t, d.ends? c = some (s, some t) ∧ v.Joins x (s, t)
  output : ∀ {o id c}, (o, id, c) ∈ v.outputs → d.body? id = some (o.shape settings).body ∧
    ∃ s, d.ends? c = some (s, some ⟨id, .input, 0⟩) ∧ v.Yields o s

end Key

/-! ## What building makes -/

/-- The names of the shape and the cable of an output, after so many other shapes and cables. -/
def outputNames (shapes cables n : Nat) : ShapeId × CableId := (⟨shapes + n⟩, ⟨cables + n⟩)

/-- The key of what is built from some inputs, steps and outputs in this order. -/
def Key.laid (inputs : List (Input α)) (steps : List (Step α)) (outputs : List (Output α)) :
    Key α where
  inputs := entries ShapeId.mk 0 inputs
  steps := entries ShapeId.mk inputs.length steps
  cables := entries CableId.mk 0 (cablesOf steps)
  outputs := entries (outputNames (inputs.length + steps.length) (cablesOf steps).length) 0 outputs

/-- The key of what is built from a description. -/
def key (p : Description α) : Key α :=
  .laid (sortOn Input.index p.inputs) (sortOn Step.number p.steps) (sortOn Output.index p.outputs)

theorem cables_perm {steps steps' : List (Step α)} (h : steps.Perm steps') :
    (cablesOf steps).Perm (cablesOf steps') :=
  h.flatMap_right _

theorem lists_key (p : Description α) : p.key.Lists p where
  inputs := by
    rw [show p.key.inputs.map Prod.fst = _ from map_fst_entries _ _ _]
    exact sortOn_perm _ _
  steps := by
    rw [show p.key.steps.map Prod.fst = _ from map_fst_entries _ _ _]
    exact sortOn_perm _ _
  cables := by
    rw [show p.key.cables.map Prod.fst = _ from map_fst_entries _ _ _]
    exact cables_perm (sortOn_perm _ _)
  outputs := by
    rw [show p.key.outputs.map Prod.fst = _ from map_fst_entries _ _ _]
    exact sortOn_perm _ _

theorem directory_key (p : Description α) : p.key.directory =
    entered (sortOn Input.index p.inputs) (sortOn Step.number p.steps) := by
  simp only [Key.directory, key, Key.laid, entries, entered, List.map_map]
  rfl

/-- A number means the first step that the description lists with it. -/
theorem map_first?_key (p : Description α) (number : Nat) : (p.key.first? number).map Prod.fst =
    p.steps.find? fun q => decide (q.number = number) := by
  have hmap : ∀ steps : List (Step α × ShapeId),
      (steps.find? fun e => decide (e.1.number = number)).map Prod.fst =
        (steps.map Prod.fst).find? fun q => decide (q.number = number) := fun steps => by
    rw [List.find?_map]
    rfl
  rw [Key.first?, hmap, show p.key.steps.map Prod.fst = _ from map_fst_entries _ _ _,
    ← List.head?_filter, ← List.head?_filter, sortOn, filter_stableSort]
  -- steps with one number keep their order
  intro a b ha hb hlt
  rw [of_decide_eq_true ha, of_decide_eq_true hb, Nat.compare_eq_lt] at hlt
  exact Nat.lt_irrefl _ hlt

theorem Key.exists_first?_of_mem {v : Key α} {e : Step α × ShapeId} (he : e ∈ v.steps) :
    ∃ q id, v.first? e.1.number = some (q, id) := by
  have hsome : (v.first? e.1.number).isSome := List.find?_isSome.2 ⟨e, he, decide_eq_true rfl⟩
  obtain ⟨⟨q, id⟩, hq⟩ := Option.isSome_iff_exists.1 hsome
  exact ⟨q, id, hq⟩

variable [Scalar α] {settings : Settings α} {p : Description α} {d : Diagram α}

theorem stands_key (settings : Settings α) (p : Description α) : p.key.Stands settings
    (blank.addShapes (shapesOf settings (sortOn Input.index p.inputs)
      (sortOn Step.number p.steps))) where
  input hi := by
    obtain ⟨n, hn, rfl⟩ := mem_entries.1 hi
    rw [Nat.zero_add]
    exact body?_of_input hn
  step hq := by
    obtain ⟨n, hn, rfl⟩ := mem_entries.1 hq
    exact body?_of_step hn

/-- Building succeeds if all cables into steps can be laid, and then all outputs made. -/
theorem build_eq_ok_iff_lay : p.build settings = .ok d ↔
    ∃ d₁, ((cablesOf (sortOn Step.number p.steps)).forM (layCable p.key.directory)).run
        (blank.addShapes (shapesOf settings (sortOn Input.index p.inputs)
          (sortOn Step.number p.steps))) = (.ok ⟨⟩, d₁) ∧
      ((sortOn Output.index p.outputs).forM (addOutput settings p.key.directory)).run d₁ =
        (.ok ⟨⟩, d) := by
  have hfound : ∀ q ∈ sortOn Step.number p.steps, ∃ id, p.key.directory.step q.number = .ok id := by
    intro q hq
    rw [← map_fst_entries ShapeId.mk (sortOn Input.index p.inputs).length
      (sortOn Step.number p.steps)] at hq
    obtain ⟨e, he, rfl⟩ := List.mem_map.1 hq
    obtain ⟨q', id, hq'⟩ := p.key.exists_first?_of_mem he
    exact ⟨id, Key.directory_step_eq_ok_iff.2 ⟨q', hq'⟩⟩
  rw [build_eq_ok_iff rfl rfl rfl, run_bind_eq_ok_iff, ← directory_key]
  simp only [run_forM_addCables hfound]
  exact ⟨fun ⟨⟨⟩, d₁, h⟩ => ⟨d₁, h⟩, fun ⟨d₁, h⟩ => ⟨⟨⟩, d₁, h⟩⟩

/-- Where the cables of a built diagram run. -/
structure Made (p : Description α) (settings : Settings α) (d : Diagram α)
    (ends : List (Terminal × Terminal)) (sources : List Terminal) : Prop where
  stands : p.key.Stands settings d
  joins : Forall₂ p.key.Joins (cablesOf (sortOn Step.number p.steps)) ends
  yields : Forall₂ p.key.Yields (sortOn Output.index p.outputs) sources
  consists : d.Consists
    ((shapesOf settings (sortOn Input.index p.inputs) (sortOn Step.number p.steps) ++
      (sortOn Output.index p.outputs).map (Output.shape settings)).map Shape.body)
    (ends ++ Key.outputWires
      ((sortOn Input.index p.inputs).length + (sortOn Step.number p.steps).length) sources)

theorem exists_made_of_build (h : p.build settings = .ok d) :
    ∃ ends sources, p.Made settings d ends sources ∧ Layable ends := by
  obtain ⟨d₁, hcables, houtputs⟩ := build_eq_ok_iff_lay.1 h
  obtain ⟨ends, hends, hstands, hlaid⟩ :=
    (stands_key settings p).exists_ends_of_run (consists_shapesOf settings _ _) hcables
  obtain ⟨sources, hsources, hall, hconsists⟩ := hstands.exists_sources_of_run hlaid houtputs
  refine ⟨ends, sources, ⟨hall, hends, hsources, ?_⟩, hlaid.layable⟩
  simpa [shapesOf, Function.comp_def] using hconsists

theorem exists_build_of_layable {ends : List (Terminal × Terminal)}
    (hends : Forall₂ p.key.Joins (cablesOf (sortOn Step.number p.steps)) ends)
    (hlayable : Layable ends)
    (houtputs : ∀ o ∈ sortOn Output.index p.outputs, ∃ s, p.key.Yields o s) :
    ∃ d, p.build settings = .ok d := by
  obtain ⟨d₁, hrun, hstands, hlaid⟩ := (stands_key settings p).exists_run_cables
    (consists_shapesOf settings _ _) hends hlayable
  obtain ⟨d, hrest⟩ := hstands.exists_run_outputs hlaid houtputs
  exact ⟨d, build_eq_ok_iff_lay.2 ⟨d₁, hrun, hrest⟩⟩

/-! ## Matching what has been made -/

section

omit [Scalar α]

variable (inputs : List (Input α)) (steps : List (Step α)) (outputs : List (Output α))

theorem map_outputs_laid {ι : Type} (f : ShapeId × CableId → ι) :
    (Key.laid inputs steps outputs).outputs.map (fun e => f e.2) =
      (List.range' 0 outputs.length).map fun n =>
        f (outputNames (inputs.length + steps.length) (cablesOf steps).length n) := by
  have hmap := congrArg (List.map f) (map_snd_entries (outputNames (inputs.length + steps.length)
    (cablesOf steps).length) 0 outputs)
  rwa [List.map_map, List.map_map] at hmap

/-- Shapes come one after the other. -/
theorem shapes_laid : (Key.laid inputs steps outputs).shapes =
    (List.range' 0 (inputs.length + steps.length + outputs.length)).map ShapeId.mk := by
  have houtputs : (Key.laid inputs steps outputs).outputs.map (·.2.1) =
      (List.range' (0 + (inputs.length + steps.length)) outputs.length).map ShapeId.mk := by
    rw [map_outputs_laid inputs steps outputs Prod.fst, Nat.zero_add,
      ← Nat.add_zero (inputs.length + steps.length), ← List.map_add_range', List.map_map]
    rfl
  rw [Key.shapes, houtputs, ← List.range'_append_1, ← List.range'_append_1, List.map_append,
    List.map_append, Nat.zero_add inputs.length]
  exact congrArg (· ++ _) (congrArg₂ (· ++ ·) (map_snd_entries _ _ _) (map_snd_entries _ _ _))

/-- Cables come one after the other. -/
theorem wires_laid : (Key.laid inputs steps outputs).wires =
    (List.range' 0 ((cablesOf steps).length + outputs.length)).map CableId.mk := by
  have houtputs : (Key.laid inputs steps outputs).outputs.map (·.2.2) =
      (List.range' (0 + (cablesOf steps).length) outputs.length).map CableId.mk := by
    rw [map_outputs_laid inputs steps outputs Prod.snd, Nat.zero_add,
      ← Nat.add_zero (cablesOf steps).length, ← List.map_add_range', List.map_map]
    rfl
  rw [Key.wires, houtputs, ← List.range'_append_1, List.map_append]
  exact congrArg (· ++ _) (map_snd_entries _ _ _)

end

omit [Scalar α] in
theorem nodup_shapes_key (p : Description α) : p.key.shapes.Nodup := by
  rw [key, shapes_laid]
  exact List.Nodup.map (fun m n hmn => congrArg ShapeId.slot hmn) List.nodup_range'

theorem mem_map_shapeId {n : Nat} {id : ShapeId} :
    id ∈ (List.range' 0 n).map ShapeId.mk ↔ id.slot < n := by
  simp [List.mem_range', ← ShapeId.slot_inj]

theorem length_shapesOf (settings : Settings α) (inputs : List (Input α)) (steps : List (Step α)) :
    (shapesOf settings inputs steps).length = inputs.length + steps.length := by
  rw [shapesOf, List.length_append, List.length_map, List.length_map]

/-- What has been built shows its description. -/
theorem Made.depicts {ends : List (Terminal × Terminal)} {sources : List Terminal}
    (h : p.Made settings d ends sources) : p.key.Depicts settings p d where
  toStands := h.stands
  toLists := lists_key p
  nodup_shapes := nodup_shapes_key p
  mem_shapes id := by
    rw [key, shapes_laid, mem_map_shapeId, h.consists.body, isSome_getElem?]
    simp [length_shapesOf, Nat.add_assoc]
  nodup_wires := by
    rw [key, wires_laid]
    exact List.Nodup.map (fun m n hmn => congrArg CableId.slot hmn) List.nodup_range'
  mem_wires c := by
    rw [key, wires_laid, h.consists.ends, Option.isSome_map, isSome_getElem?]
    simp [Key.outputWires, ← CableId.slot_inj, ← h.joins.length_eq, ← h.yields.length_eq]
  cable hx := by
    obtain ⟨n, hn, rfl⟩ := mem_entries.1 hx
    obtain ⟨w, hw, hjoins⟩ := getElem?_of_forall₂ h.joins hn
    refine ⟨w.1, w.2, ?_, hjoins⟩
    rw [h.consists.ends, Nat.zero_add,
      List.getElem?_append_left (List.getElem?_eq_some_iff.1 hw).1, hw, Option.map_some]
  output ho := by
    obtain ⟨n, hn, heq⟩ := mem_entries.1 ho
    obtain ⟨rfl, rfl⟩ := Prod.mk.inj heq
    obtain ⟨s, hs, hyields⟩ := getElem?_of_forall₂ h.yields hn
    rw [Nat.zero_add]
    refine ⟨?_, s, ?_, hyields⟩
    · rw [h.consists.body, List.getElem?_map, ← length_shapesOf settings, getElem?_append_add,
        List.getElem?_map, hn]
      rfl
    · rw [h.consists.ends, h.joins.length_eq, getElem?_append_add, Key.outputWires,
        List.getElem?_map, List.getElem?_zipIdx, hs]
      rfl

/-- Every cable of a step ends on the first step that is listed with its number, and if the cable
leaves a step, it leaves the first one with the number that it names. -/
theorem exists_depicts_of_build (h : p.build settings = .ok d) : ∃ v : Key α,
    v.Depicts settings p d ∧
    (∀ number, (v.first? number).map Prod.fst = p.steps.find? fun q => decide (q.number = number)) ∧
    ∀ q k c, ((q, k), c) ∈ v.cables → ∃ s t, d.ends? c = some (s, some t) ∧
      v.Numbered q.number t.shape ∧
      (k.sourceStep ≠ 0 → v.Numbered k.sourceStep s.shape) := by
  obtain ⟨ends, sources, hmade, -⟩ := exists_made_of_build h
  refine ⟨p.key, hmade.depicts, map_first?_key p, fun q k c hc => ?_⟩
  obtain ⟨s, t, hends, type, expected, hsource, hplug, -⟩ := hmade.depicts.cable hc
  exact ⟨s, t, hends, hplug.numbered, hsource.numbered⟩

/-- Two steps with one number, and a cable to each of them. -/
def sameNumbers : Description Double where
  inputs := [⟨"r", 1, 0, 0, none⟩]
  steps :=
    [⟨"f", 1, 0, 0, [⟨"a", 1, none⟩, ⟨"b", 2, none⟩], [⟨"y", 1, none⟩], [⟨0, "r", "a"⟩]⟩,
     ⟨"g", 1, 0, 0, [⟨"b", 1, none⟩], [], [⟨0, "r", "b"⟩]⟩]
  outputs := [⟨"o", 1, 1, "y", 0, 0, none⟩]

/-- The input and the steps, with the cable of the first step. -/
def cabledSameNumbers : Diagram Double :=
  (blank.addShapes (shapesOf .standard sameNumbers.inputs sameNumbers.steps)).join
    ⟨⟨0⟩, .output, 0⟩ ⟨⟨1⟩, .input, 0⟩

def builtSameNumbers : Diagram Double :=
  ((cabledSameNumbers.join ⟨⟨0⟩, .output, 0⟩ ⟨⟨1⟩, .input, 1⟩).addShape
    (.output "o" none Point.origin)).join ⟨⟨1⟩, .output, 0⟩ ⟨⟨3⟩, .input, 0⟩

theorem build_sameNumbers : sameNumbers.build .standard = .ok builtSameNumbers := by
  have hinputs : sortOn Input.index sameNumbers.inputs = sameNumbers.inputs := rfl
  have hsteps : sortOn Step.number sameNumbers.steps = sameNumbers.steps := rfl
  have houtputs : sortOn Output.index sameNumbers.outputs = sameNumbers.outputs := rfl
  refine (build_eq_ok_iff hinputs hsteps houtputs).2 (run_bind_eq_ok_iff.2
    ⟨⟨⟩, cabledSameNumbers.join ⟨⟨0⟩, .output, 0⟩ ⟨⟨1⟩, .input, 1⟩,
      run_bind_eq_ok_iff.2 ⟨⟨⟩, cabledSameNumbers, ?_, ?_⟩, ?_⟩)
  · exact run_addCables_singleton rfl rfl rfl rfl
      (Edit.run_connect_of_successors_eq_nil rfl rfl rfl rfl rfl rfl (by decide) rfl)
  · exact (run_forM_singleton _ _ _).trans (run_addCables_singleton rfl rfl rfl rfl
      (Edit.run_connect_of_successors_eq_nil rfl rfl rfl rfl rfl rfl (by decide) rfl))
  · refine (run_forM_singleton _ _ _).trans (run_addOutput_eq_ok_iff.2 ⟨_, rfl, ⟨2⟩, ?_⟩)
    exact Edit.run_connect_of_successors_eq_nil rfl rfl rfl rfl rfl rfl (by decide) rfl

theorem exists_depicts_sameNumbers :
    sameNumbers.build .standard = .ok builtSameNumbers ∧
    ∃ v : Key Double, v.Depicts .standard sameNumbers builtSameNumbers ∧
      (∀ number, (v.first? number).map Prod.fst =
        sameNumbers.steps.find? fun q => decide (q.number = number)) ∧
      ∀ q k c, ((q, k), c) ∈ v.cables → ∃ s t, builtSameNumbers.ends? c = some (s, some t) ∧
        v.Numbered q.number t.shape ∧ (k.sourceStep ≠ 0 → v.Numbered k.sourceStep s.shape) :=
  ⟨build_sameNumbers, exists_depicts_of_build build_sameNumbers⟩

/-- The cable of the second step has landed on the first one, and the second step has none. -/
theorem misplaced_sameNumbers :
    sameNumbers.steps.map (fun q => (q.name, q.number)) = [("f", 1), ("g", 1)] ∧
    sameNumbers.build .standard = .ok builtSameNumbers ∧
    (builtSameNumbers.shape? ⟨1⟩).map Shape.label = some "f" ∧
    (builtSameNumbers.shape? ⟨2⟩).map Shape.label = some "g" ∧
    builtSameNumbers.ends? ⟨1⟩ = some (⟨⟨0⟩, .output, 0⟩, some ⟨⟨1⟩, .input, 1⟩) ∧
    (builtSameNumbers.shape? ⟨2⟩).map Shape.cables = some [] :=
  ⟨rfl, build_sameNumbers, rfl, rfl, rfl, rfl⟩

end Description

end Patchbay
