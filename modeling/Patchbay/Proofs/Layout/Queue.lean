import Mathlib.Data.List.TakeWhile
import Patchbay.Layout.Layers

/-!
# Joining a layer in turn

While a layer is built, steps of its phase are found in any order, more than once or not at all, and
between them other shapes are put into the layer. Here this is any list of arrivals, and each shape
in the layer is marked with whether it came through the queue.

Whatever arrives, the steps that have come through the queue are those at the front of the phase
that have been found: the longest stretch without a gap (`InTurn.joined_eq_takeWhile`). A step that
is found again after it has joined stays in the queue for good, and so does a shape that is not of
the phase. Neither makes a difference, because the phase has no step twice (`joinsInTurn`). The
layers of a diagram are filled like this (`exists_arrivals_addPhase`).
-/

namespace Patchbay

namespace Layout

/-! ## Arrivals -/

/-- A step is found, or another shape is put into the layer. -/
inductive Arrival
  | found (id : ShapeId)
  | put (id : ShapeId)

/-- The step, if one is found. -/
def Arrival.found? : Arrival → Option ShapeId
  | .found id => some id
  | .put _ => none

/-- The shape that is put into the layer, if one is. -/
def Arrival.put? : Arrival → Option ShapeId
  | .found _ => none
  | .put id => some id

/-- A layer on the way with the queue that fills it. A shape is marked if it came through the queue,
and the others are those that were put there. -/
structure Filling where
  layer : List (ShapeId × Bool)
  queue : Queue

namespace Filling

def start (phase : List ShapeId) : Filling := ⟨[], .ofPhase phase⟩

def arrive (f : Filling) : Arrival → Filling
  | .found id => ⟨f.layer ++ (f.queue.offer id).1.map (·, true), (f.queue.offer id).2⟩
  | .put id => { f with layer := f.layer ++ [(id, false)] }

def after (f : Filling) (arrivals : List Arrival) : Filling := arrivals.foldl arrive f

def finish (f : Filling) : List (ShapeId × Bool) := f.layer ++ f.queue.finish.map (·, true)

/-- The shapes in a layer that came through the queue. -/
def joined (layer : List (ShapeId × Bool)) : List ShapeId := (layer.filter (·.2)).map (·.1)

/-- The shapes in a layer that were put there. -/
def others (layer : List (ShapeId × Bool)) : List ShapeId := (layer.filter (!·.2)).map (·.1)

@[simp] theorem joined_append (layer layer' : List (ShapeId × Bool)) :
    joined (layer ++ layer') = joined layer ++ joined layer' := by
  simp [joined]

@[simp] theorem others_append (layer layer' : List (ShapeId × Bool)) :
    others (layer ++ layer') = others layer ++ others layer' := by
  simp [others]

@[simp] theorem joined_map_true (ids : List ShapeId) : joined (ids.map (·, true)) = ids := by
  simp [joined, List.filter_map, Function.comp_def]

@[simp] theorem others_map_true (ids : List ShapeId) : others (ids.map (·, true)) = [] := by
  simp [others, List.filter_map]

@[simp] theorem joined_singleton_false (id : ShapeId) : joined [(id, false)] = [] := rfl

@[simp] theorem others_singleton_false (id : ShapeId) : others [(id, false)] = [id] := rfl

end Filling

/-! ## One step that is found -/

namespace Queue

variable {q : Queue} {pending waiting : List ShapeId} {id x : ShapeId}

/-- Steps that join have waited. -/
theorem mem_waiting_of_mem_release (h : x ∈ (release pending waiting).1) : x ∈ waiting := by
  induction pending generalizing waiting with
  | nil => cases h
  | cons next rest ih =>
    rw [release] at h
    by_cases hwaits : next ∈ waiting
    · rw [if_pos hwaits] at h
      rcases List.mem_cons.1 h with rfl | h
      · exact hwaits
      · exact List.mem_of_mem_erase (ih h)
    · rw [if_neg hwaits] at h
      cases h

/-- Steps that are still pending were pending before. -/
theorem mem_pending_of_mem_release (h : x ∈ (release pending waiting).2.pending) : x ∈ pending := by
  rw [← release_append pending waiting]
  exact List.mem_append_right _ h

/-- Of the steps that are still pending, the same ones wait. -/
theorem mem_waiting_release (h : pending.Nodup) (hx : x ∈ (release pending waiting).2.pending) :
    x ∈ (release pending waiting).2.waiting ↔ x ∈ waiting := by
  induction pending generalizing waiting with
  | nil => cases hx
  | cons next rest ih =>
    obtain ⟨hnext, hrest⟩ := List.nodup_cons.1 h
    rw [release] at hx ⊢
    by_cases hwaits : next ∈ waiting
    · rw [if_pos hwaits] at hx ⊢
      have hne : x ≠ next := fun heq => hnext (heq ▸ mem_pending_of_mem_release hx)
      exact (ih hrest hx).trans (List.mem_erase_of_ne hne)
    · rw [if_neg hwaits]

/-- The first step that is still pending does not wait. -/
theorem not_mem_waiting_of_head?_release (h : pending.Nodup)
    (hx : (release pending waiting).2.pending.head? = some x) : x ∉ waiting := by
  induction pending generalizing waiting with
  | nil => cases hx
  | cons next rest ih =>
    obtain ⟨hnext, hrest⟩ := List.nodup_cons.1 h
    rw [release] at hx
    by_cases hwaits : next ∈ waiting
    · rw [if_pos hwaits] at hx
      have hmem : x ∈ rest := mem_pending_of_mem_release (List.mem_of_head? hx)
      have hne : x ≠ next := fun heq => hnext (heq ▸ hmem)
      exact fun hx' => ih hrest hx ((List.mem_erase_of_ne hne).2 hx')
    · rw [if_neg hwaits] at hx
      cases hx
      exact hwaits

/-- Of the steps found, the queue knows those that wait, as long as they are pending. The next step
is not among them. -/
structure Knows (found : List ShapeId) (q : Queue) : Prop where
  nodup : q.pending.Nodup
  mem_waiting : ∀ x ∈ q.pending, x ∈ q.waiting ↔ x ∈ found
  next : ∀ x, q.pending.head? = some x → x ∉ found

variable {found : List ShapeId}

/-- Steps that are released have been found, and the queue knows the rest. -/
theorem knows_release (hnodup : pending.Nodup) (h : ∀ x ∈ pending, x ∈ waiting ↔ x ∈ found) :
    (∀ x ∈ (release pending waiting).1, x ∈ found) ∧
      (release pending waiting).2.Knows found := by
  have hparts := release_append pending waiting
  refine ⟨fun x hx => ?_, ?_, fun x hx => ?_, fun x hx => ?_⟩
  · have hmem : x ∈ pending := hparts ▸ List.mem_append_left _ hx
    exact (h x hmem).1 (mem_waiting_of_mem_release hx)
  · rw [← hparts] at hnodup
    exact (List.nodup_append.1 hnodup).2.1
  · rw [mem_waiting_release hnodup hx, h x (mem_pending_of_mem_release hx)]
  · rw [← h x (mem_pending_of_mem_release (List.mem_of_head? hx))]
    exact not_mem_waiting_of_head?_release hnodup hx

/-- A step that is not the next one waits. -/
theorem Knows.wait (h : q.Knows found) (hid : q.pending.head? ≠ some id) :
    (if id ∈ q.waiting then q else ⟨q.pending, q.waiting ++ [id]⟩).Knows (found ++ [id]) := by
  have hnext : ∀ x, q.pending.head? = some x → x ∉ found ++ [id] := by
    intro x hx hfound
    rcases List.mem_append.1 hfound with hfound | hfound
    · exact h.next x hx hfound
    · exact hid (List.mem_singleton.1 hfound ▸ hx)
  by_cases hwaits : id ∈ q.waiting
  · rw [if_pos hwaits]
    refine ⟨h.nodup, fun x hx => ?_, hnext⟩
    rw [List.mem_append, List.mem_singleton, ← h.mem_waiting x hx]
    exact ⟨.inl, fun hx' => hx'.elim (fun hold => hold) fun heq => heq ▸ hwaits⟩
  · rw [if_neg hwaits]
    refine ⟨h.nodup, fun x hx => ?_, hnext⟩
    rw [List.mem_append, List.mem_append, h.mem_waiting x hx]

/-- What joins when a step is found has been found, and the queue knows the rest. -/
theorem Knows.offer (h : q.Knows found) (id : ShapeId) :
    (∀ x ∈ (q.offer id).1, x ∈ found ++ [id]) ∧ (q.offer id).2.Knows (found ++ [id]) := by
  obtain ⟨pending, waiting⟩ := q
  cases pending with
  | nil => exact ⟨by simp [Queue.offer], h.wait (by simp)⟩
  | cons next rest =>
    by_cases hid : next = id
    · subst hid
      obtain ⟨hnext, hrest⟩ := List.nodup_cons.1 h.nodup
      have hwaits : ∀ x ∈ rest, x ∈ waiting ↔ x ∈ found ++ [next] := by
        intro x hx
        have hne : x ≠ next := fun heq => hnext (heq ▸ hx)
        have hold : x ∈ waiting ↔ x ∈ found := h.mem_waiting x (List.mem_cons_of_mem next hx)
        simp [hold, hne]
      obtain ⟨hjoined, hknows⟩ := knows_release hrest hwaits
      simp only [Queue.offer, if_true]
      exact ⟨List.forall_mem_cons.2 ⟨by simp, hjoined⟩, hknows⟩
    · have hhead : (next :: rest).head? ≠ some id := by simpa using hid
      have hwait := h.wait hhead
      simp only [Queue.offer, if_neg hid]
      exact ⟨by simp, hwait⟩

end Queue

/-! ## Any list of arrivals -/

variable {phase found : List ShapeId}

namespace Filling

variable {f : Filling}

/-- After the steps found, those that have joined are found and are the front of the phase, and the
queue has the rest of it. -/
structure InTurn (phase found : List ShapeId) (f : Filling) : Prop where
  parts : joined f.layer ++ f.queue.pending = phase
  mem_found : ∀ x ∈ joined f.layer, x ∈ found
  knows : f.queue.Knows found

theorem inTurn_start (h : phase.Nodup) : (start phase).InTurn phase [] where
  parts := rfl
  mem_found := by simp [start, joined]
  knows := ⟨h, by simp [start, Queue.ofPhase], by simp⟩

theorem InTurn.arrive (h : f.InTurn phase found) (a : Arrival) :
    (f.arrive a).InTurn phase (found ++ a.found?.toList) := by
  cases a with
  | found id =>
    obtain ⟨hjoined, hknows⟩ := h.knows.offer id
    refine ⟨?_, fun x hx => ?_, hknows⟩
    · simp only [Filling.arrive, joined_append, joined_map_true, List.append_assoc,
        Queue.offer_append]
      exact h.parts
    · simp only [Filling.arrive, joined_append, joined_map_true] at hx
      rcases List.mem_append.1 hx with hx | hx
      · exact List.mem_append_left _ (h.mem_found x hx)
      · exact hjoined x hx
  | put id =>
    have hsame : joined (f.arrive (.put id)).layer = joined f.layer := by
      simp [Filling.arrive]
    rw [Arrival.found?, Option.toList_none, List.append_nil]
    exact ⟨by rw [hsame]; exact h.parts, by rw [hsame]; exact h.mem_found, h.knows⟩

theorem InTurn.after (h : f.InTurn phase found) (arrivals : List Arrival) :
    (f.after arrivals).InTurn phase (found ++ arrivals.filterMap Arrival.found?) := by
  induction arrivals generalizing f found with
  | nil => simpa [Filling.after] using h
  | cons a arrivals ih =>
    have hfound : found ++ (a :: arrivals).filterMap Arrival.found? =
        found ++ a.found?.toList ++ arrivals.filterMap Arrival.found? := by
      cases a <;> simp [List.filterMap_cons, Arrival.found?]
    rw [hfound]
    exact ih (h.arrive a)

/-- Those that have joined are the front of the phase up to the first step that is not found. -/
theorem InTurn.joined_eq_takeWhile (h : f.InTurn phase found) :
    joined f.layer = phase.takeWhile (· ∈ found) := by
  have hfound : ∀ x ∈ joined f.layer, decide (x ∈ found) = true := fun x hx =>
    decide_eq_true (h.mem_found x hx)
  have hrest : f.queue.pending.takeWhile (· ∈ found) = [] := by
    cases hpending : f.queue.pending with
    | nil => rfl
    | cons next rest =>
      have hnext : next ∉ found := h.knows.next next (by rw [hpending, List.head?_cons])
      simp [hnext]
  rw [← h.parts, List.takeWhile_append_of_pos hfound, hrest, List.append_nil]

theorem InTurn.joined_finish (h : f.InTurn phase found) : joined f.finish = phase := by
  rw [finish, joined_append, joined_map_true, Queue.finish_eq, h.parts]

/-- What is put into the layer stays in its order, whatever joins in between. -/
theorem others_after (f : Filling) (arrivals : List Arrival) :
    others (f.after arrivals).layer = others f.layer ++ arrivals.filterMap Arrival.put? := by
  induction arrivals generalizing f with
  | nil => simp [Filling.after]
  | cons a arrivals ih =>
    refine (ih (f.arrive a)).trans ?_
    cases a <;> simp [Filling.arrive, List.filterMap_cons, Arrival.put?]

theorem mem_found_iff {arrivals : List Arrival} {x : ShapeId} :
    x ∈ arrivals.filterMap Arrival.found? ↔ Arrival.found x ∈ arrivals := by
  rw [List.mem_filterMap]
  constructor
  · rintro ⟨a, ha, hx⟩
    cases a with
    | found id => exact Option.some.inj hx ▸ ha
    | put id => cases hx
  · exact fun ha => ⟨_, ha, rfl⟩

/-- A step is in front of all that is not found just when it is found with all steps before it. -/
theorem mem_takeWhile_iff {before after : List ShapeId} {id : ShapeId}
    (h : (before ++ id :: after).Nodup) :
    id ∈ (before ++ id :: after).takeWhile (· ∈ found) ↔ ∀ x ∈ before ++ [id], x ∈ found := by
  have hid : id ∉ before := fun hmem =>
    (List.nodup_append.1 h).2.2 id hmem id List.mem_cons_self rfl
  by_cases hbefore : ∀ x ∈ before, decide (x ∈ found) = true
  · rw [List.takeWhile_append_of_pos hbefore, List.forall_mem_append]
    by_cases hfound : id ∈ found
    · simpa [hid, hfound] using hbefore
    · simp [hid, hfound]
  · have hshort : (before.takeWhile (· ∈ found)).length ≠ before.length := by
      intro hlen
      have hall : before.takeWhile (· ∈ found) = before :=
        (List.takeWhile_prefix _).eq_of_length hlen
      exact hbefore (List.takeWhile_eq_self_iff.1 hall)
    rw [List.takeWhile_append, if_neg hshort]
    constructor
    · exact fun hmem => absurd ((List.takeWhile_sublist _).subset hmem) hid
    · exact fun hall => absurd (fun x hx => by simpa using hall x (by simp [hx])) hbefore

/-- Whatever arrives, the steps that have come through the queue are the front of their phase, each
once and in order, and each of them has come as soon as it and all before it in the phase are found.
In the end the whole phase has come through the queue. Other shapes keep their order. -/
theorem joinsInTurn (h : phase.Nodup) (arrivals : List Arrival) :
    joined ((start phase).after arrivals).layer <+: phase ∧
      (joined ((start phase).after arrivals).layer).Nodup ∧
      (∀ before id after, phase = before ++ id :: after →
        (id ∈ joined ((start phase).after arrivals).layer ↔
          ∀ x ∈ before ++ [id], Arrival.found x ∈ arrivals)) ∧
      joined ((start phase).after arrivals).finish = phase ∧
      others ((start phase).after arrivals).layer = arrivals.filterMap Arrival.put? := by
  have hturn : ((start phase).after arrivals).InTurn phase
      (arrivals.filterMap Arrival.found?) := (inTurn_start h).after arrivals
  have hfront : joined ((start phase).after arrivals).layer <+: phase := ⟨_, hturn.parts⟩
  refine ⟨hfront, hfront.sublist.nodup h, ?_, hturn.joined_finish, others_after _ _⟩
  intro before id after hphase
  rw [hturn.joined_eq_takeWhile]
  subst hphase
  simp only [mem_takeWhile_iff h, mem_found_iff]

/-- The third step is found first, the second one twice, and a shape that is not of the phase is
found as well. -/
theorem joinsInTurn_threeSteps :
    ([⟨1⟩, ⟨2⟩, ⟨3⟩] : List ShapeId).Nodup ∧
    joined ((start [⟨1⟩, ⟨2⟩, ⟨3⟩]).after [.found ⟨3⟩, .put ⟨9⟩, .found ⟨2⟩, .found ⟨7⟩, .found ⟨1⟩,
      .put ⟨8⟩, .found ⟨2⟩]).finish = [⟨1⟩, ⟨2⟩, ⟨3⟩] ∧
    (⟨3⟩ ∈ joined ((start [⟨1⟩, ⟨2⟩, ⟨3⟩]).after [.found ⟨3⟩, .put ⟨9⟩, .found ⟨2⟩]).layer ↔
      ∀ x ∈ [⟨1⟩, ⟨2⟩] ++ [⟨3⟩], Arrival.found x ∈ [.found ⟨3⟩, .put ⟨9⟩, .found ⟨2⟩]) := by
  have hnodup : ([⟨1⟩, ⟨2⟩, ⟨3⟩] : List ShapeId).Nodup := by decide
  exact ⟨hnodup, (joinsInTurn hnodup _).2.2.2.1, (joinsInTurn hnodup _).2.2.1 _ _ [] rfl⟩

end Filling

/-! ## The layers of a diagram -/

variable {α : Type} {g : Growing} {f : Filling}

/-- The layer that is being built is the one that is filled, but for the marks. -/
structure Fills (f : Filling) (g : Growing) : Prop where
  layer : f.layer.map Prod.fst = g.layer
  queue : f.queue = g.queue

/-- A shape that is taken in arrives in one way or the other, or is left. -/
theorem Fills.exists_take (h : Fills f g) (d : Diagram α) (phase : List ShapeId) (id : ShapeId) :
    ∃ arrivals, Fills (f.after arrivals) (g.take d phase id) := by
  unfold Growing.take
  split
  · exact ⟨[], h⟩
  split
  · exact ⟨[], h⟩
  split
  · refine ⟨[.put id], ?_, h.queue⟩
    simp [Filling.after, Filling.arrive, h.layer]
  split
  · refine ⟨[.found id], ?_, ?_⟩
    · simp [Filling.after, Filling.arrive, h.layer, h.queue, Function.comp_def]
    · simp [Filling.after, Filling.arrive, h.queue]
  · exact ⟨[], h⟩

theorem Fills.exists_foldl_take (h : Fills f g) (d : Diagram α) (phase ids : List ShapeId) :
    ∃ arrivals, Fills (f.after arrivals) (ids.foldl (Growing.take d phase) g) := by
  induction ids generalizing f g with
  | nil => exact ⟨[], h⟩
  | cons id ids ih =>
    obtain ⟨arrivals, hfirst⟩ := h.exists_take d phase id
    obtain ⟨arrivals', hrest⟩ := ih hfirst
    refine ⟨arrivals ++ arrivals', ?_⟩
    rw [Filling.after, List.foldl_append]
    exact hrest

/-- A layer of a diagram is filled by arrivals. -/
theorem exists_arrivals_addPhase (d : Diagram α) (s : Stack) (before phase : List ShapeId) :
    ∃ arrivals, (s.addPhase d before phase).layers.head? =
      some (((Filling.start phase).after arrivals).finish.map Prod.fst) := by
  have hstart : Fills (Filling.start phase) ⟨s.placed, [], .ofPhase phase⟩ := ⟨rfl, rfl⟩
  obtain ⟨arrivals, hlayer, hqueue⟩ :=
    hstart.exists_foldl_take d phase (before.flatMap d.successors)
  refine ⟨arrivals, ?_⟩
  simp [Stack.addPhase, Filling.finish, hlayer, hqueue, Function.comp_def]

end Layout

end Patchbay
