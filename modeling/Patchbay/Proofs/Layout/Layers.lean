import Patchbay.Proofs.Layout.Levels

/-!
# The layers of a layout

The layers are built from the first phase to the last. For each phase, shapes of three kinds are
placed: the steps of the phase, the outputs that the phase before feeds, and one layer above them
the inputs that no phase has needed so far. `Stack.Holds` says what this leaves: the shapes that are
placed are those with a level among the layers that there are, each once, in the layer of its level.

Whatever has no level is put into the first layer at the end (`Arranged`). So the layers hold every
shape once, and their steps are the phases (`layersOf_of_compute`).
-/

namespace Patchbay

namespace Layout

open Diagram

variable {α : Type} {d : Diagram α} {phase placed ids seen : List ShapeId} {id : ShapeId} {n : Nat}

/-! ## Shapes that are not placed -/

theorem nodup_newOnes : (newOnes placed ids).Nodup := nodup_eraseDups _

theorem mem_newOnes_iff : id ∈ newOnes placed ids ↔ id ∈ ids ∧ id ∉ placed := by
  simp [newOnes, List.mem_eraseDups]

theorem mem_feedingInputs_iff (h : d.Wired) {a : ShapeId} :
    a ∈ d.feedingInputs id ↔ d.Feeds a id ∧ d.has Shape.isInput a = true := by
  simp only [feedingInputs, List.mem_eraseDups, List.mem_filter, List.mem_filterMap]
  refine and_congr_left fun _ => ?_
  rw [← Phases.some_mem_feeders_iff h]
  exact ⟨fun ⟨_, hs, heq⟩ => heq ▸ hs, fun hs => ⟨_, hs, rfl⟩⟩

/-! ## One layer -/

/-- What a layer that is being built holds after the shapes seen: outputs that were not placed, each
once, and steps from the front of the phase. -/
structure Growing.Holds (d : Diagram α) (placed phase seen : List ShapeId) (g : Growing) :
    Prop where
  placed_eq : g.placed = placed ++ g.layer.filter (!d.has Shape.isStep ·)
  steps : g.layer.filter (d.has Shape.isStep) ++ g.queue.pending = phase
  nodup : (g.layer.filter (!d.has Shape.isStep ·)).Nodup
  mem_iff : ∀ id, id ∈ g.layer.filter (!d.has Shape.isStep ·) ↔
    d.has Shape.isOutput id = true ∧ id ∈ seen ∧ id ∉ placed

/-- A shape that is left makes no difference. -/
theorem Growing.Holds.leave {g : Growing} (h : g.Holds d placed phase seen)
    (hid : d.has Shape.isOutput id = true → id ∈ g.placed) :
    g.Holds d placed phase (seen ++ [id]) where
  placed_eq := h.placed_eq
  steps := h.steps
  nodup := h.nodup
  mem_iff x := by
    rw [h.mem_iff]
    constructor
    · exact fun ⟨hout, hseen, hnot⟩ => ⟨hout, List.mem_append_left _ hseen, hnot⟩
    · rintro ⟨hout, hseen, hnot⟩
      rcases List.mem_append.1 hseen with hseen | hx
      · exact ⟨hout, hseen, hnot⟩
      · obtain rfl := List.mem_singleton.1 hx
        have hplaced := hid hout
        rw [h.placed_eq] at hplaced
        exact (h.mem_iff x).1 ((List.mem_append.1 hplaced).resolve_left hnot)

/-- Steps that join the layer in their turn make no other difference. -/
theorem Growing.Holds.join {g : Growing} {joined : List ShapeId} {queue : Queue}
    (h : g.Holds d placed phase seen) (hphase : ∀ x ∈ phase, d.has Shape.isStep x = true)
    (hjoined : joined ++ queue.pending = g.queue.pending) :
    Growing.Holds d placed phase seen { g with layer := g.layer ++ joined, queue } := by
  have hsteps : ∀ x ∈ joined, d.has Shape.isStep x = true := fun x hx => by
    refine hphase x ?_
    rw [← h.steps, ← hjoined]
    exact List.mem_append_right _ (List.mem_append_left _ hx)
  have hnone : joined.filter (!d.has Shape.isStep ·) = [] :=
    List.filter_eq_nil_iff.2 fun x hx => by simp [hsteps x hx]
  have hall : joined.filter (d.has Shape.isStep) = joined := List.filter_eq_self.2 hsteps
  constructor
  all_goals simp only [List.filter_append, hnone, List.append_nil]
  · exact h.placed_eq
  · rw [hall, List.append_assoc, hjoined, h.steps]
  · exact h.nodup
  · exact h.mem_iff

/-- An output that was not placed joins the layer at once. -/
theorem Growing.Holds.joinOutput {g : Growing} (h : g.Holds d placed phase seen)
    (hout : d.has Shape.isOutput id = true) (hnew : id ∉ g.placed) :
    Growing.Holds d placed phase (seen ++ [id])
      { g with placed := g.placed ++ [id], layer := g.layer ++ [id] } := by
  have hstep : d.has Shape.isStep id = false := by
    rw [Bool.eq_false_iff]
    intro hstep
    rw [not_isOutput_of_isStep hstep] at hout
    cases hout
  rw [h.placed_eq, List.mem_append, not_or] at hnew
  constructor
  all_goals simp only [List.filter_append, List.filter_singleton, hstep, Bool.not_false, cond_true,
    cond_false, List.append_nil]
  · rw [h.placed_eq, List.append_assoc]
  · exact h.steps
  · refine List.nodup_append.2 ⟨h.nodup, List.nodup_singleton _, ?_⟩
    rintro x hx _ hy rfl
    exact hnew.2 (List.mem_singleton.1 hy ▸ hx)
  · intro x
    rw [List.mem_append, h.mem_iff, List.mem_append, List.mem_singleton]
    constructor
    · rintro (⟨hx, hseen, hnot⟩ | rfl)
      · exact ⟨hx, .inl hseen, hnot⟩
      · exact ⟨hout, .inr rfl, hnew.1⟩
    · rintro ⟨hx, hseen | rfl, hnot⟩
      · exact .inl ⟨hx, hseen, hnot⟩
      · exact .inr rfl

theorem Growing.Holds.take {g : Growing} (h : g.Holds d placed phase seen)
    (hphase : ∀ x ∈ phase, d.has Shape.isStep x = true) (id : ShapeId) :
    (g.take d phase id).Holds d placed phase (seen ++ [id]) := by
  unfold Growing.take
  split
  · rename_i hplaced
    exact h.leave fun _ => hplaced
  rename_i hnew
  split
  · rename_i hgone
    exact h.leave fun hout => by simp [has, hgone] at hout
  rename_i s hs
  split
  · rename_i hout
    exact h.joinOutput (by rwa [has_of_shape? hs]) hnew
  · rename_i hout
    have hleft : g.Holds d placed phase (seen ++ [id]) :=
      h.leave fun hhas => absurd hhas (by rwa [has_of_shape? hs])
    split
    · exact hleft.join hphase (Queue.offer_append g.queue id)
    · exact hleft

theorem Growing.Holds.foldl_take {g : Growing} (h : g.Holds d placed phase seen)
    (hphase : ∀ x ∈ phase, d.has Shape.isStep x = true) (ids : List ShapeId) :
    (ids.foldl (Growing.take d phase) g).Holds d placed phase (seen ++ ids) := by
  induction ids generalizing g seen with
  | nil => simpa using h
  | cons id ids ih => simpa using ih (h.take hphase id)

/-- Nothing has been seen before the layer is built. -/
theorem Growing.holds_start : Growing.Holds d placed phase [] ⟨placed, [], .ofPhase phase⟩ where
  placed_eq := (List.append_nil _).symm
  steps := rfl
  nodup := List.nodup_nil
  mem_iff := by simp

/-! ## The stack of layers -/

variable {done : List (List ShapeId)} {s : Stack}

/-- The layers for the phases done. -/
structure Stack.Holds (d : Diagram α) (done : List (List ShapeId)) (s : Stack) : Prop where
  length_eq : s.layers.length = done.length + 1
  inLayer_iff : ∀ id n, InLayer s.layers.reverse id n ↔ Level d done id n ∧ n ≤ done.length
  steps : s.layers.reverse.map (·.filter (d.has Shape.isStep)) = [] :: done
  placed_perm : s.placed.Perm s.layers.flatten
  nodup : s.placed.Nodup

theorem Stack.holds_nil : Stack.Holds d [] ⟨[], [[]]⟩ where
  length_eq := rfl
  inLayer_iff id n := by
    constructor
    · rintro ⟨layer, hlayer, hid⟩
      obtain rfl := List.mem_singleton.1 (List.mem_of_getElem? hlayer)
      cases hid
    · exact fun ⟨hlevel, _⟩ => absurd hlevel not_level_nil
  steps := rfl
  placed_perm := List.Perm.refl _
  nodup := List.nodup_nil

/-- The shapes placed are those of the levels that there are. -/
theorem Stack.Holds.mem_placed_iff (h : s.Holds d done) :
    id ∈ s.placed ↔ ∃ n, Level d done id n ∧ n ≤ done.length := by
  rw [h.placed_perm.mem_iff, ← (List.reverse_perm s.layers).flatten.mem_iff, mem_flatten_iff]
  exact exists_congr (h.inLayer_iff id)

/-- What is placed for a further phase: a layer, and inputs for the layer above it. -/
structure Row (d : Diagram α) (done : List (List ShapeId))
    (placed phase layer inputs : List ShapeId) : Prop where
  steps : layer.filter (d.has Shape.isStep) = phase
  mem_layer : ∀ id, id ∈ layer ↔ id ∈ phase ∨ Level d done id (done.length + 1)
  mem_inputs : ∀ id, id ∈ inputs ↔ d.has Shape.isInput id = true ∧ (∃ b ∈ phase, d.Feeds id b) ∧
    id ∉ placed
  layer_nodup : layer.Nodup
  inputs_nodup : inputs.Nodup

section Row

variable {layer inputs : List ShapeId}

theorem Row.level_of_mem_layer (h : Row d done placed phase layer inputs) (hid : id ∈ layer) :
    Level d (done ++ [phase]) id (done.length + 1) := by
  rcases (h.mem_layer id).1 hid with hphase | hlevel
  · exact level_concat.2 (.inr (.inl ⟨rfl, hphase⟩))
  · exact level_concat.2 (.inl hlevel)

/-- An input is new to the phases if it is not placed. -/
theorem Row.level_of_mem_inputs (h : Row d done s.placed phase layer inputs) (hs : s.Holds d done)
    (hid : id ∈ inputs) : Level d (done ++ [phase]) id done.length := by
  obtain ⟨hin, hfeeds, hnew⟩ := (h.mem_inputs id).1 hid
  refine level_concat.2 (.inr (.inr (.inr ⟨rfl, hin, hfeeds, fun x k hx hidx => hnew ?_⟩)))
  obtain ⟨m, hm, hlevel⟩ := exists_level_of_input hin hx hidx
  exact hs.mem_placed_iff.2 ⟨m, hlevel, Nat.le_of_lt (Nat.lt_of_le_of_lt hm hx.lt_length)⟩

/-- The levels that the row stands for. -/
theorem Row.level_iff (h : Row d done s.placed phase layer inputs) (hs : s.Holds d done)
    (honce : StepsOnce d done) : Level d (done ++ [phase]) id n ∧ n ≤ done.length + 1 ↔
      (Level d done id n ∧ n ≤ done.length) ∨ (n = done.length ∧ id ∈ inputs) ∨
        (n = done.length + 1 ∧ id ∈ layer) := by
  constructor
  · rintro ⟨hlevel, hle⟩
    rcases level_concat.1 hlevel with hlevel | ⟨rfl, hid⟩ | ⟨rfl, -⟩ | ⟨rfl, hin, hfeeds, hnone⟩
    · rcases Nat.lt_or_eq_of_le hle with hlt | rfl
      · exact .inl ⟨hlevel, Nat.le_of_lt_succ hlt⟩
      · exact .inr (.inr ⟨rfl, (h.mem_layer id).2 (.inr hlevel)⟩)
    · exact .inr (.inr ⟨rfl, (h.mem_layer id).2 (.inl hid)⟩)
    · omega
    · refine .inr (.inl ⟨rfl, (h.mem_inputs id).2 ⟨hin, hfeeds, fun hid => ?_⟩⟩)
      obtain ⟨m, hm, -⟩ := hs.mem_placed_iff.1 hid
      obtain ⟨b, hb, hidb⟩ := hm.feeds_of_isInput honce hin
      exact hnone b m hb hidb
  · rintro (⟨hlevel, hle⟩ | ⟨rfl, hid⟩ | ⟨rfl, hid⟩)
    · exact ⟨level_concat.2 (.inl hlevel), Nat.le_succ_of_le hle⟩
    · exact ⟨h.level_of_mem_inputs hs hid, Nat.le_succ _⟩
    · exact ⟨h.level_of_mem_layer hid, Nat.le_refl _⟩

/-- What is in the layers when a layer is added and the one above it gets more. -/
theorem inLayer_reverse_grow {latest : List ShapeId} {rest : List (List ShapeId)} :
    InLayer (layer :: (latest ++ inputs) :: rest).reverse id n ↔
      InLayer (latest :: rest).reverse id n ∨ (n = rest.length ∧ id ∈ inputs) ∨
        (n = rest.length + 1 ∧ id ∈ layer) := by
  simp only [List.reverse_cons, inLayer_concat, List.length_append, List.length_reverse,
    List.length_singleton, List.mem_append, and_or_left, or_assoc]

variable [Scalar α]

/-- A row holds no shape that is placed, and no shape twice. -/
theorem Row.nodup (h : Row d done s.placed phase layer inputs) (hs : s.Holds d done)
    (hsound : d.Sound []) (honce : StepsOnce d (done ++ [phase])) :
    (s.placed ++ (layer ++ inputs)).Nodup := by
  refine List.nodup_append'.2 ⟨hs.nodup, List.nodup_append'.2
    ⟨h.layer_nodup, h.inputs_nodup, fun x hx hx' => ?_⟩, fun x hx hx' => ?_⟩
  · have heq := (h.level_of_mem_layer hx).unique hsound honce (h.level_of_mem_inputs hs hx')
    omega
  · obtain ⟨n, hn, hle⟩ := hs.mem_placed_iff.1 hx
    rcases List.mem_append.1 hx' with hx' | hx'
    · have heq := (level_concat.2 (.inl hn)).unique hsound honce (h.level_of_mem_layer hx')
      omega
    · exact ((h.mem_inputs x).1 hx').2.2 hx

/-- A row for the next phase keeps what holds of the layers. -/
theorem Stack.Holds.grow (h : s.Holds d done) (hs : d.Sound [])
    (honce : StepsOnce d (done ++ [phase])) (hrow : Row d done s.placed phase layer inputs)
    (hplaced : placed.Perm (s.placed ++ (layer ++ inputs))) :
    Stack.Holds d (done ++ [phase]) ⟨placed, layer :: (s.addToLatest inputs).layers⟩ := by
  obtain ⟨latest, rest, hlayers⟩ := List.exists_cons_of_length_eq_add_one h.length_eq
  have hlen : rest.length = done.length := by simpa [hlayers] using h.length_eq
  have hnosteps : inputs.filter (d.has Shape.isStep) = [] := by
    refine List.filter_eq_nil_iff.2 fun x hx => ?_
    rw [not_isStep_of_isInput ((hrow.mem_inputs x).1 hx).1]
    exact Bool.false_ne_true
  have hsteps := h.steps
  have hperm := h.placed_perm
  simp only [hlayers, List.reverse_cons, List.map_append, List.map_cons, List.map_nil] at hsteps
  rw [hlayers, List.flatten_cons] at hperm
  simp only [Stack.addToLatest, hlayers]
  constructor
  · simp [hlen]
  · intro id n
    rw [inLayer_reverse_grow, ← hlayers, h.inLayer_iff, hlen, List.length_append,
      List.length_singleton, hrow.level_iff h honce.left]
  · simp only [List.reverse_cons, List.map_append, List.map_cons, List.map_nil, List.filter_append,
      hnosteps, List.append_nil]
    rw [hsteps, hrow.steps]
    rfl
  · refine hplaced.trans (List.perm_iff_count.2 fun x => ?_)
    have hcount := List.perm_iff_count.1 hperm x
    simp only [List.count_append, List.flatten_cons] at hcount ⊢
    omega
  · exact hplaced.nodup_iff.2 (hrow.nodup h hs honce)

end Row

/-! ## All phases -/

section Phases

variable [Scalar α] {before : List ShapeId} {phases rest : List (List ShapeId)}

/-- The new ones among the inputs that feed a phase. -/
theorem mem_feeding_iff (hs : d.Sound []) : id ∈ newOnes placed (phase.flatMap d.feedingInputs) ↔
    d.has Shape.isInput id = true ∧ (∃ b ∈ phase, d.Feeds id b) ∧ id ∉ placed := by
  simp only [mem_newOnes_iff, List.mem_flatMap, mem_feedingInputs_iff hs.toWired]
  constructor
  · rintro ⟨⟨b, hb, hfeeds, hin⟩, hnew⟩
    exact ⟨hin, ⟨b, hb, hfeeds⟩, hnew⟩
  · rintro ⟨hin, ⟨b, hb, hfeeds⟩, hnew⟩
    exact ⟨⟨b, hb, hfeeds, hin⟩, hnew⟩

theorem Stack.holds_start (hs : d.Sound []) (honce : StepsOnce d [phase]) :
    (Stack.start d (phase :: rest)).Holds d [phase] := by
  have honce' : StepsOnce d ([] ++ [phase]) := honce
  obtain ⟨hphase, hnodup⟩ := honce'.last
  refine Stack.holds_nil.grow hs honce
    { steps := List.filter_eq_self.2 hphase
      mem_layer := fun id => (or_iff_left not_level_nil).symm
      mem_inputs := fun id => mem_feeding_iff hs
      layer_nodup := hnodup
      inputs_nodup := nodup_newOnes } List.perm_append_comm

/-- Outputs that the last phase feeds have not been placed. -/
theorem Stack.Holds.output_notMem_placed (h : s.Holds d (done ++ [before])) (hs : d.Sound [])
    (honce : StepsOnce d (done ++ [before])) (hout : d.has Shape.isOutput id = true)
    (hfed : ∃ a ∈ before, d.Feeds a id) : id ∉ s.placed := by
  intro hid
  obtain ⟨n, hn, hle⟩ := h.mem_placed_iff.1 hid
  have heq := hn.unique hs honce (level_concat_length.2 ⟨hout, hfed⟩)
  simp at hle
  omega

theorem Stack.Holds.addPhase (h : s.Holds d (done ++ [before])) (hs : d.Sound [])
    (honce : StepsOnce d (done ++ [before] ++ [phase])) :
    (s.addPhase d before phase).Holds d (done ++ [before] ++ [phase]) := by
  obtain ⟨hphase, hnodup⟩ := honce.last
  have hstart : Growing.Holds d s.placed phase [] ⟨s.placed, [], .ofPhase phase⟩ :=
    Growing.holds_start
  have hgrown := hstart.foldl_take hphase (before.flatMap d.successors)
  unfold Stack.addPhase
  generalize (before.flatMap d.successors).foldl _ _ = grown at hgrown
  -- the steps that wait at the end join as if they had been found in their turn
  have hall : grown.queue.finish ++ (⟨[], []⟩ : Queue).pending = grown.queue.pending := by
    rw [Queue.finish_eq, List.append_nil]
  have hlayer := hgrown.join hphase hall
  have hsteps := (List.append_nil _).symm.trans hlayer.steps
  have hperm := List.filter_append_perm (d.has Shape.isStep) (grown.layer ++ grown.queue.finish)
  refine h.grow hs honce
    { steps := hsteps
      mem_layer := fun x => ?_
      mem_inputs := fun x => ?_
      layer_nodup := ?_
      inputs_nodup := nodup_newOnes } ?_
  · rw [← hperm.mem_iff, List.mem_append, hsteps, hlayer.mem_iff, List.length_append,
      List.length_singleton, level_concat_length, List.nil_append, List.mem_flatMap]
    refine or_congr_right (and_congr_right fun hout => ?_)
    simp only [mem_successors_iff hs.toWired]
    exact and_iff_left_of_imp (h.output_notMem_placed hs honce.left hout)
  · rw [mem_feeding_iff hs]
    refine and_congr_right fun hin => and_congr_right fun _ => not_congr ?_
    rw [hgrown.placed_eq, List.append_assoc, List.mem_append]
    refine or_iff_left fun hx => ?_
    rcases List.mem_append.1 hx with hx | hx
    · have hout := ((hgrown.mem_iff x).1 hx).1
      simp [not_isOutput_of_isInput hin] at hout
    · have hstep := hphase x hx
      simp [not_isStep_of_isInput hin] at hstep
  · refine hperm.nodup_iff.1 (List.nodup_append'.2 ⟨hsteps ▸ hnodup, hlayer.nodup, ?_⟩)
    intro x hx hx'
    simp [(List.mem_filter.1 hx).2] at hx'
  · have hplaced : grown.placed = _ := hlayer.placed_eq
    simp only [Stack.addToLatest, hplaced]
    rw [List.append_assoc s.placed, List.append_assoc s.placed]
    exact .append_left _ (.append_right _ (List.perm_append_comm.trans (hsteps ▸ hperm)))

theorem Stack.Holds.addPhases (h : s.Holds d (done ++ [before])) (hs : d.Sound [])
    (honce : StepsOnce d (done ++ before :: rest)) :
    (Stack.addPhases d (before :: rest) s).Holds d (done ++ before :: rest ++ [[]]) := by
  induction rest generalizing done before s with
  | nil => exact h.addPhase hs (honce.congr (by simp))
  | cons phase rest ih =>
    have hassoc : done ++ before :: phase :: rest = (done ++ [before]) ++ phase :: rest := by simp
    rw [hassoc] at honce ⊢
    have honce' : StepsOnce d (done ++ [before] ++ [phase] ++ rest) := honce.congr (by simp)
    exact ih (h.addPhase hs honce'.left) honce

/-- The layers before the shapes without a level are added. -/
theorem Stack.holds_stack (hs : d.Sound []) (honce : StepsOnce d phases) :
    ((Stack.start d phases).addPhases d phases).Holds d (builtFor phases) := by
  cases phases with
  | nil => exact Stack.holds_nil
  | cons phase rest =>
    have hfirst : StepsOnce d ([phase] ++ rest) := honce
    have hstart : (Stack.start d (phase :: rest)).Holds d ([] ++ [phase]) :=
      Stack.holds_start hs hfirst.left
    exact hstart.addPhases hs honce

end Phases

/-! ## The layers of a diagram -/

variable {p : Phases} {first loose : List ShapeId} {rest : List (List ShapeId)}

/-- The shapes that are in no layer when the layers of the phases are built. -/
def leftOver (d : Diagram α) (p : Phases) : List ShapeId :=
  d.order.filter (· ∉ ((Stack.start d p.layers).addPhases d p.layers).placed)

/-- The layers, with the first one in two parts: what has a level, and what has none. -/
structure Arranged (d : Diagram α) (p : Phases) (first loose : List ShapeId)
    (rest : List (List ShapeId)) : Prop where
  layersOf_eq : layersOf d p = ((first ++ loose) :: rest).filter (!·.isEmpty)
  inLayer_iff : ∀ id n, InLayer (first :: rest) id n ↔ Level d p.layers id n
  mem_loose : ∀ id, id ∈ loose ↔ (d.body? id).isSome ∧ ∀ n, ¬ Level d p.layers id n
  steps : (first :: rest).map (·.filter (d.has Shape.isStep)) = [] :: builtFor p.layers
  nodup : ((first ++ loose) :: rest).flatten.Nodup

theorem Arranged.flatten_eq (h : Arranged d p first loose rest) :
    (layersOf d p).flatten = ((first ++ loose) :: rest).flatten := by
  rw [h.layersOf_eq, List.flatten_filter_not_isEmpty]

/-- Every shape is in a layer. -/
theorem Arranged.mem_iff (h : Arranged d p first loose rest) (honce : StepsOnce d p.layers) :
    id ∈ (layersOf d p).flatten ↔ (d.body? id).isSome := by
  have hparts : id ∈ (layersOf d p).flatten ↔ (∃ n, Level d p.layers id n) ∨ id ∈ loose := by
    rw [← exists_congr (h.inLayer_iff id), ← mem_flatten_iff, h.flatten_eq]
    simp only [List.flatten_cons, List.mem_append]
    exact or_right_comm
  rw [hparts, h.mem_loose]
  constructor
  · rintro (⟨n, hn⟩ | ⟨hlive, -⟩)
    · exact hn.live honce
    · exact hlive
  · intro hlive
    by_cases hlevel : ∃ n, Level d p.layers id n
    · exact .inl hlevel
    · exact .inr ⟨hlive, not_exists.1 hlevel⟩

variable [Scalar α]

theorem stepsOnce_layers (hs : d.Sound []) (hp : Phases.Layered d p) :
    StepsOnce d p.layers where
  isStep _ hid := hs.mem_steps.1 (hp.perm.mem_iff.1 hid)
  nodup := hp.perm.nodup_iff.2 hs.steps_nodup

theorem exists_arranged_leftOver (hs : d.Sound []) (hp : Phases.Layered d p) :
    ∃ first rest, Arranged d p first (leftOver d p) rest := by
  have h := Stack.holds_stack hs (stepsOnce_layers hs hp)
  generalize hstack : (Stack.start d p.layers).addPhases d p.layers = s at h
  obtain ⟨first, rest, hlayers⟩ :=
    List.exists_cons_of_length_eq_add_one ((List.length_reverse).trans h.length_eq)
  have hinLayer : ∀ id n, InLayer (first :: rest) id n ↔ Level d p.layers id n := by
    intro _ _
    rw [← hlayers, h.inLayer_iff, level_builtFor]
    exact and_iff_left_of_imp Level.le_builtFor
  have hperm : s.placed.Perm (first :: rest).flatten :=
    h.placed_perm.trans (hlayers ▸ (List.reverse_perm s.layers).symm.flatten)
  have hplaced : ∀ id, id ∈ s.placed ↔ ∃ n, Level d p.layers id n := by
    intro id
    rw [hperm.mem_iff, mem_flatten_iff]
    exact exists_congr (hinLayer id)
  have hloose : leftOver d p = d.order.filter (· ∉ s.placed) := hstack ▸ rfl
  rw [hloose]
  refine ⟨first, rest, ?_, hinLayer, fun _ => ?_, ?_, ?_⟩
  · simp only [layersOf, hstack, hlayers]
  · simp [hs.mem_order, hplaced]
  · exact hlayers ▸ h.steps
  · have hparts : ((first ++ d.order.filter (· ∉ s.placed)) :: rest).flatten.Perm
        (s.placed ++ d.order.filter (· ∉ s.placed)) := by
      refine List.perm_iff_count.2 fun id => ?_
      have hcount := List.perm_iff_count.1 hperm id
      simp only [List.count_append, List.flatten_cons] at hcount ⊢
      omega
    refine hparts.nodup_iff.2 (List.nodup_append'.2 ⟨h.nodup, hs.order_nodup.filter _, ?_⟩)
    intro id hid hloose
    simp [hid] at hloose

theorem exists_arranged (hs : d.Sound []) (hp : Phases.Layered d p) :
    ∃ first loose rest, Arranged d p first loose rest := by
  obtain ⟨first, rest, h⟩ := exists_arranged_leftOver hs hp
  exact ⟨first, leftOver d p, rest, h⟩

/-- A layer that keeps a step was not empty before. -/
theorem filter_map_filter (layers : List (List ShapeId)) (q : ShapeId → Bool) :
    ((layers.filter (!·.isEmpty)).map (·.filter q)).filter (!·.isEmpty) =
      (layers.map (·.filter q)).filter (!·.isEmpty) := by
  rw [List.filter_map, List.filter_filter, List.filter_map]
  refine congrArg _ (List.filter_congr fun layer _ => ?_)
  cases layer with
  | nil => rfl
  | cons id layer => exact Bool.and_true _

/-- The steps in the layers are the phases. -/
theorem Arranged.steps_eq (h : Arranged d p first loose rest) (hs : d.Sound [])
    (hp : Phases.Layered d p) :
    ((layersOf d p).map (·.filter (d.has Shape.isStep))).filter (!·.isEmpty) = p.layers := by
  have hloose : loose.filter (d.has Shape.isStep) = [] := by
    refine List.filter_eq_nil_iff.2 fun id hid hstep => ?_
    obtain ⟨n, hn⟩ := mem_flatten_iff.1 (hp.perm.mem_iff.2 (hs.mem_steps.2 hstep))
    exact ((h.mem_loose id).1 hid).2 _ (.step hn)
  have hall : ((first ++ loose) :: rest).map (·.filter (d.has Shape.isStep)) =
      [] :: builtFor p.layers := by
    rw [← h.steps, List.map_cons, List.map_cons, List.filter_append, hloose, List.append_nil]
  rw [h.layersOf_eq, filter_map_filter, hall]
  exact filter_builtFor hp.ne_nil

/-- The layers of a reachable diagram hold every shape once, none of them is empty, and their steps
are the phases. -/
theorem layersOf_of_compute {d : Diagram Double} {p : Phases} (h : d.Reachable)
    (hp : Phases.compute d = .ok p) :
    (layersOf d p).flatten.Nodup ∧ (∀ id, id ∈ (layersOf d p).flatten ↔ (d.shape? id).isSome) ∧
      (∀ layer ∈ layersOf d p, layer ≠ []) ∧
      ((layersOf d p).map (·.filter (d.has Shape.isStep))).filter (!·.isEmpty) = p.layers := by
  have hs := h.sound
  have hlayered := Phases.layered_of_compute hs hp
  obtain ⟨first, loose, rest, harranged⟩ := exists_arranged hs hlayered
  refine ⟨?_, fun id => ?_, fun layer hlayer => ?_, harranged.steps_eq hs hlayered⟩
  · rw [harranged.flatten_eq]
    exact harranged.nodup
  · rw [harranged.mem_iff (stepsOnce_layers hs hlayered), isSome_body?]
  · rw [harranged.layersOf_eq] at hlayer
    simpa using (List.mem_filter.1 hlayer).2

/-- A step feeds another one, which an input feeds as well. -/
def lateInput : List (Change Double) :=
  [.addShape (.rawInput "a" Point.origin),
   .addShape (.step "f" [⟨"x", none⟩] [⟨"y", none⟩] Point.origin),
   .addShape (.step "g" [⟨"p", none⟩, ⟨"q", none⟩] [⟨"z", none⟩] Point.origin),
   .addShape (.rawInput "b" Point.origin),
   .addShape (.output "o" none Point.origin),
   .connect ⟨⟨0⟩, .output, 0⟩ ⟨⟨1⟩, .input, 0⟩,
   .connect ⟨⟨1⟩, .output, 0⟩ ⟨⟨2⟩, .input, 0⟩,
   .connect ⟨⟨3⟩, .output, 0⟩ ⟨⟨2⟩, .input, 1⟩,
   .connect ⟨⟨2⟩, .output, 0⟩ ⟨⟨4⟩, .input, 0⟩]

theorem after_lateInput : blank.after lateInput = ((((blank.after (lateInput.take 5)).join
    ⟨⟨0⟩, .output, 0⟩ ⟨⟨1⟩, .input, 0⟩).join ⟨⟨1⟩, .output, 0⟩ ⟨⟨2⟩, .input, 0⟩).join
      ⟨⟨3⟩, .output, 0⟩ ⟨⟨2⟩, .input, 1⟩).join ⟨⟨2⟩, .output, 0⟩ ⟨⟨4⟩, .input, 0⟩ := by
  rw [← run_connect_of_successors_eq_nil rfl rfl rfl rfl rfl rfl (by decide) rfl,
    ← run_connect_of_successors_eq_nil rfl rfl rfl rfl rfl rfl (by decide) rfl,
    ← run_connect_of_successors_eq_nil rfl rfl rfl rfl rfl rfl (by decide) rfl,
    ← run_connect_of_successors_eq_nil rfl rfl rfl rfl rfl rfl (by decide) rfl]
  rfl

theorem reachable_lateInput : (blank.after lateInput).Reachable := by
  refine ⟨_, ?_, rfl⟩
  simp [lateInput, Change.Built, Shape.Built.rawInput, Shape.Built.step, Shape.Built.output]

theorem compute_lateInput : Phases.compute (blank.after lateInput) = .ok ⟨[[⟨1⟩], [⟨2⟩]]⟩ := by
  rw [after_lateInput]
  rfl

theorem layersOf_of_compute_lateInput :
    ((blank.after lateInput).Reachable ∧
      Phases.compute (blank.after lateInput) = .ok ⟨[[⟨1⟩], [⟨2⟩]]⟩) ∧
    (layersOf (blank.after lateInput) ⟨[[⟨1⟩], [⟨2⟩]]⟩).flatten.Nodup ∧
    (∀ id, id ∈ (layersOf (blank.after lateInput) ⟨[[⟨1⟩], [⟨2⟩]]⟩).flatten ↔
      ((blank.after lateInput).shape? id).isSome) ∧
    (∀ layer ∈ layersOf (blank.after lateInput) ⟨[[⟨1⟩], [⟨2⟩]]⟩, layer ≠ []) ∧
    ((layersOf (blank.after lateInput) ⟨[[⟨1⟩], [⟨2⟩]]⟩).map
      (·.filter ((blank.after lateInput).has Shape.isStep))).filter (!·.isEmpty) =
        [[⟨1⟩], [⟨2⟩]] :=
  ⟨⟨reachable_lateInput, compute_lateInput⟩,
    layersOf_of_compute reachable_lateInput compute_lateInput⟩

end Layout

end Patchbay
