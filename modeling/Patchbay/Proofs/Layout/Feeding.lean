import Patchbay.Layout.Placement
import Patchbay.Proofs.Layout.Downwards
import Patchbay.Proofs.Phases.Stuck

/-!
# What feeds a layer

Each layer but the first is placed around the middle of the magnets that feed it, so there is no
place for it unless a cable from a layer that is placed already ends in it. When a layer is reached,
the shapes that are placed are those of the layers before (`isSome_place?_of_placeLayers`), and
there is such a cable just when one of these layers feeds the one reached
(`feedingCoordinates_ne_nil_iff_fedFromAbove`).

The layers of a diagram are built so that each is fed by the one above it. The exception is the
layer of the first phase (`Unfed`): steps without input magnets are fed by nothing, and the layer is
not the first one if there are shapes that nothing leads to. This is the only exception
(`fedFromAbove_iff`). It is always reached, as only the first layer comes before it
(`Unfed.exists_reaches`), and so there is no layout then (`placeLayers_of_unfed`).
-/

namespace Patchbay

open Diagram

variable {α : Type}

/-! ## Placements -/

namespace Placement

variable {p : Placement α} {id x : ShapeId} {q : Point α}

theorem isSome_place?_iff : (p.place? x).isSome ↔ x ∈ p.map Prod.fst := by
  simp [place?, List.find?_isSome]

theorem isSome_place?_put : ((p.put id q).place? x).isSome ↔ (p.place? x).isSome ∨ x = id := by
  simp only [isSome_place?_iff, put, List.map_append, List.mem_append, List.map_cons, List.map_nil,
    List.mem_singleton, List.mem_map, List.mem_filter, decide_eq_true_eq]
  by_cases hx : x = id
  · simp [hx]
  · simp only [hx, or_false]
    constructor
    · intro ⟨y, ⟨hy, _⟩, heq⟩
      exact ⟨y, hy, heq⟩
    · intro ⟨y, hy, heq⟩
      exact ⟨y, ⟨hy, heq ▸ hx⟩, heq⟩

end Placement

namespace Layout

variable [Scalar α] {d : Diagram α} {settings : Settings α} {placed placed' : Placement α}
  {layer : List ShapeId} {layers before rest : List (List ShapeId)} {a b id : ShapeId} {n : Nat}

def middle (d : Diagram α) (placed : Placement α) (index : Nat) (layer : List ShapeId) : α :=
  if index = 0 then 0 else mean (feedingCoordinates d placed layer)

/-- Place a layer around its middle. -/
def putLayer (settings : Settings α) (centre : α) (index : Nat) (layer : List ShapeId)
    (placed : Placement α) : Placement α :=
  layer.zipIdx.foldl
    (fun placed x => placed.put x.1
      ⟨centre + ((x.2 : α) - Scalar.half ((layer.length : α) - 1)) * settings.nodeSpacing,
        (index : α) * settings.layerSpacing⟩)
    placed

theorem placeFrom_cons : placeFrom d settings n (layer :: rest) placed =
    if Scalar.Finite (middle d placed n layer) then
      placeFrom d settings (n + 1) rest
        (putLayer settings (middle d placed n layer) n layer placed)
    else .error (.noCentre n) := rfl

/-- Layers are placed one after the other. -/
theorem placeFrom_append : placeFrom d settings n (before ++ rest) placed =
    (placeFrom d settings n before placed).bind
      (placeFrom d settings (n + before.length) rest) := by
  induction before generalizing n placed with
  | nil => rfl
  | cons layer before ih =>
    rw [List.cons_append, placeFrom_cons, placeFrom_cons]
    split
    · rw [ih, List.length_cons, Nat.add_assoc, Nat.add_comm 1]
    · rfl

theorem isSome_place?_putLayer {centre : α} :
    ((putLayer settings centre n layer placed).place? id).isSome ↔
      (placed.place? id).isSome ∨ id ∈ layer := by
  have hall : ∀ (xs : List (ShapeId × Nat)) (at_ : ShapeId × Nat → Point α) (q : Placement α),
      ((xs.foldl (fun q x => q.put x.1 (at_ x)) q).place? id).isSome ↔
        (q.place? id).isSome ∨ id ∈ xs.map Prod.fst := by
    intro xs at_ q
    induction xs generalizing q with
    | nil => simp
    | cons x xs ih =>
      rw [List.foldl_cons, ih, Placement.isSome_place?_put, List.map_cons, List.mem_cons, or_assoc]
  rw [putLayer, hall, List.zipIdx_map_fst 0 layer]

theorem isSome_place?_of_placeFrom (h : placeFrom d settings n layers placed = .ok placed') :
    (placed'.place? id).isSome ↔ (placed.place? id).isSome ∨ id ∈ layers.flatten := by
  induction layers generalizing n placed with
  | nil =>
    cases h
    simp
  | cons layer layers ih =>
    rw [placeFrom_cons] at h
    split at h
    · rw [ih h, isSome_place?_putLayer, List.flatten_cons, List.mem_append, or_assoc]
    · cases h

/-- The shapes that are placed are those of the layers. -/
theorem isSome_place?_of_placeLayers (h : placeLayers d settings layers = .ok placed) :
    (placed.place? id).isSome ↔ id ∈ layers.flatten :=
  (isSome_place?_of_placeFrom h).trans (by simp [Placement.place?])

/-! ## Reaching a layer -/

/-- Placing the layers comes to the layer of that index when the shapes before it are placed. -/
structure Reaches (d : Diagram α) (settings : Settings α) (layers : List (List ShapeId)) (n : Nat)
    (layer : List ShapeId) (placed : Placement α) : Prop where
  layer : layers[n]? = some layer
  placed : placeLayers d settings (layers.take n) = .ok placed

/-- What is left to do when a layer is reached. -/
theorem Reaches.placeLayers_eq (h : Reaches d settings layers n layer placed) :
    placeLayers d settings layers =
      placeFrom d settings n (layer :: layers.drop (n + 1)) placed := by
  obtain ⟨hlt, hlayer⟩ := List.getElem?_eq_some_iff.1 h.layer
  have hsplit : layers = layers.take n ++ layer :: layers.drop (n + 1) := by
    rw [← hlayer, List.getElem_cons_drop, List.take_append_drop]
  have hplaced : placeFrom d settings 0 (layers.take n) [] = .ok placed := h.placed
  have hlen : (layers.take n).length = n := List.length_take_of_le (Nat.le_of_lt hlt)
  calc placeLayers d settings layers
    _ = placeFrom d settings 0 (layers.take n ++ layer :: layers.drop (n + 1)) [] := by
      rw [← hsplit]
      rfl
    _ = placeFrom d settings n (layer :: layers.drop (n + 1)) placed := by
      rw [placeFrom_append, hplaced, hlen, Nat.zero_add]
      rfl

/-! ## Cables that feed a layer -/

/-- A layer is fed just when a cable from a shape that is placed ends in it. -/
theorem feedingCoordinates_ne_nil_iff (h : d.Wired) :
    feedingCoordinates d placed layer ≠ [] ↔
      ∃ a b, (placed.place? a).isSome ∧ b ∈ layer ∧ d.Feeds a b := by
  simp only [feedingCoordinates]
  constructor
  · intro hne
    obtain ⟨x, hx⟩ := List.exists_mem_of_ne_nil _ hne
    simp only [List.mem_flatMap, List.mem_filterMap] at hx
    obtain ⟨s, ⟨b, hb, hs⟩, c, ⟨m, hm, hc⟩, hx⟩ := hx
    obtain ⟨i, hi⟩ := List.mem_iff_getElem?.1 hm
    have hmag : d.magnet? ⟨b, .input, i⟩ = some m := (magnet?_of_shape? hs).trans hi
    obtain ⟨t, hends⟩ := h.landed hmag rfl hc
    obtain ⟨k, hk, rfl, -⟩ := exists_cable_of_ends? hends
    simp only [hk, Option.bind_eq_bind, Option.bind_some] at hx
    obtain ⟨q, hq, -⟩ := Option.bind_eq_some_iff.1 hx
    exact ⟨_, b, by rw [hq]; rfl, hb, c, _, _, hends, rfl, rfl⟩
  · rintro ⟨a, b, ha, hb, c, s, t, hc, rfl, rfl⟩
    obtain ⟨m, hm, hmem⟩ := h.dest hc
    obtain ⟨n, hn, -⟩ := h.source hc
    obtain ⟨k, hk, rfl, -⟩ := exists_cable_of_ends? hc
    obtain ⟨q, hq⟩ := Option.isSome_iff_exists.1 ha
    obtain ⟨shape, hshape, hi⟩ := Option.bind_eq_some_iff.1 hm
    rw [h.dest_side hc] at hi
    have hx : (do
        let cable ← d.cable? c
        let centre ← placed.place? cable.source.shape
        let magnet ← d.magnet? cable.source
        return Isometric.along (Isometric.canvas centre + magnet.offset)) =
        some (Isometric.along (Isometric.canvas q + n.offset)) := by
      simp [hk, hq, hn]
    refine List.ne_nil_of_mem (List.mem_flatMap.2 ⟨shape, List.mem_filterMap.2 ⟨_, hb, hshape⟩,
      List.mem_filterMap.2 ⟨c, ?_, hx⟩⟩)
    exact List.mem_flatMap.2 ⟨m, List.mem_of_getElem? hi, hmem⟩

/-- A cable from one of the layers before ends in the layer of that index. -/
def FedFromAbove (d : Diagram α) (layers : List (List ShapeId)) (n : Nat) : Prop :=
  ∃ a b m, m < n ∧ InLayer layers a m ∧ InLayer layers b n ∧ d.Feeds a b

/-- When a layer is reached, it is fed just when one of those before feeds it. -/
theorem feedingCoordinates_ne_nil_iff_fedFromAbove (h : d.Wired)
    (hreach : Reaches d settings layers n layer placed) :
    feedingCoordinates d placed layer ≠ [] ↔ FedFromAbove d layers n := by
  have habove : ∀ a, (placed.place? a).isSome ↔ ∃ m, m < n ∧ InLayer layers a m := by
    intro a
    rw [isSome_place?_of_placeLayers hreach.placed, mem_flatten_iff]
    refine exists_congr fun m => ?_
    simp only [InLayer, List.getElem?_take, Option.ite_none_right_eq_some]
    constructor
    · intro ⟨l, ⟨hm, hl⟩, ha⟩
      exact ⟨hm, l, hl, ha⟩
    · intro ⟨hm, l, hl, ha⟩
      exact ⟨l, ⟨hm, hl⟩, ha⟩
  have hin : ∀ b, b ∈ layer ↔ InLayer layers b n := by
    intro b
    simp [InLayer, hreach.layer]
  rw [feedingCoordinates_ne_nil_iff h]
  simp only [habove, hin, FedFromAbove]
  constructor
  · intro ⟨a, b, ⟨m, hm, ha⟩, hb, hab⟩
    exact ⟨a, b, m, hm, ha, hb, hab⟩
  · intro ⟨a, b, m, hm, ha, hb, hab⟩
    exact ⟨a, b, ⟨m, hm, ha⟩, hb, hab⟩

/-! ## The layers of a diagram -/

variable {p : Phases} {first loose : List ShapeId}

/-- A level that is not empty is fed from a higher one, from that of the second phase on. -/
theorem exists_feeds_of_level (hs : d.Sound []) (hp : Phases.Layered d p)
    (hid : Level d p.layers id (n + 2)) :
    ∃ a b m, d.Feeds a b ∧ Level d p.layers a m ∧ m < n + 2 ∧ Level d p.layers b (n + 2) := by
  have honce := stepsOnce_layers hs hp
  by_cases hlt : n + 1 < p.layers.length
  · -- a step of the phase is fed by one of the phase before
    obtain ⟨b, hb⟩ := List.exists_mem_of_ne_nil _ (hp.ne_nil _ (List.getElem_mem hlt))
    have hphase : p.layers[n + 1]? = some p.layers[n + 1] := List.getElem?_eq_getElem hlt
    have hlevel : Level d p.layers b (n + 2) := .step ⟨_, hphase, hb⟩
    have hfed : ¬ ∀ a, ¬ d.StepFeeds a b := fun hnone =>
      Nat.succ_ne_zero n ((hp.depth (n + 1) _ hphase b hb).zero_iff.2 hnone)
    obtain ⟨a, ha⟩ := not_forall_not.1 hfed
    have hstep : ¬ (d.has Shape.isInput a = true ∧ d.has Shape.isOutput b = true) := by
      intro hkinds
      have hinput := not_isStep_of_isInput hkinds.1
      rw [hs.mem_steps.1 ha.1] at hinput
      cases hinput
    obtain ⟨m, k, hm, hk, hlt⟩ := exists_level_of_feeds hs hp ha.2.2 hstep
    obtain rfl := hk.unique hs honce hlevel
    exact ⟨a, b, m, ha.2.2, hm, hlt, hlevel⟩
  · -- behind the last phase there are outputs only
    generalize hk : n + 2 = k at hid
    cases hid with
    | step hid =>
      have hin := hid.lt_length
      omega
    | input _ hb =>
      have hin := hb.lt_length
      omega
    | @output a _ k hout ha hfeeds =>
      obtain rfl := Nat.add_right_cancel hk
      exact ⟨a, id, n + 1, hfeeds, .step ha, Nat.lt_succ_self _, .output hout ha hfeeds⟩

/-- What is fed has input magnets. -/
theorem inputs_ne_nil_of_feeds (hs : d.Sound []) (hab : d.Feeds a b) {s : Shape α}
    (hb : d.shape? b = some s) : s.inputs ≠ [] := by
  obtain ⟨c, s', t, hc, -, rfl⟩ := hab
  obtain ⟨m, hm, -⟩ := hs.dest hc
  rw [magnet?_of_shape? hb, hs.dest_side hc] at hm
  exact List.ne_nil_of_mem (List.mem_of_getElem? hm)

/-- A step that has an input magnet is fed if all of them have cables. -/
theorem exists_feeds_of_cabled (hs : d.Sound []) (hcabled : Phases.Cabled d b) {s : Shape α}
    (hb : d.shape? b = some s) (hne : s.inputs ≠ []) : ∃ a, d.Feeds a b := by
  obtain ⟨m, hm⟩ := List.exists_mem_of_ne_nil _ hne
  obtain ⟨i, hi⟩ := List.mem_iff_getElem?.1 hm
  have hmag : d.magnet? ⟨b, .input, i⟩ = some m := (magnet?_of_shape? hb).trans hi
  obtain ⟨c, hc⟩ := List.exists_mem_of_ne_nil _ (hcabled i m hmag)
  obtain ⟨t, hends⟩ := hs.landed hmag rfl hc
  exact ⟨t.shape, c, t, _, hends, rfl, rfl⟩

section Arranged

omit [Scalar α]

variable (h : Arranged d p first loose rest)
include h

theorem Arranged.inLayer_unique {i j : Nat} (hi : InLayer (layersOf d p) id i)
    (hj : InLayer (layersOf d p) id j) : i = j :=
  hi.unique (h.flatten_eq ▸ h.nodup) hj

/-- A layer after the first holds the shapes of a level. -/
theorem Arranged.exists_level (hn : 0 < n) (hlayer : (layersOf d p)[n]? = some layer) :
    layer ≠ [] ∧ ∃ k : Nat, rest[k]? = some layer := by
  have hmem : layer ∈ ((first ++ loose) :: rest).filter (!·.isEmpty) :=
    h.layersOf_eq ▸ List.mem_of_getElem? hlayer
  refine ⟨by simpa using (List.mem_filter.1 hmem).2, List.mem_iff_getElem?.1 ?_⟩
  rw [h.layersOf_eq, List.filter_cons] at hlayer
  split at hlayer
  · obtain ⟨k, rfl⟩ := Nat.exists_eq_succ_of_ne_zero (Nat.ne_of_gt hn)
    rw [List.getElem?_cons_succ] at hlayer
    exact (List.mem_filter.1 (List.mem_of_getElem? hlayer)).1
  · exact (List.mem_filter.1 (List.mem_of_getElem? hlayer)).1

theorem Arranged.mem_iff_level {k : Nat} (hlayer : rest[k]? = some layer) :
    id ∈ layer ↔ Level d p.layers id (k + 1) := by
  rw [← h.inLayer_iff]
  simp [InLayer, hlayer]

/-- The layer of the first phase. -/
theorem Arranged.exists_phase {phase : List ShapeId} (hphase : p.layers.head? = some phase) :
    ∃ layer, rest[0]? = some layer ∧ layer.filter (d.has Shape.isStep) = phase := by
  have hsteps := h.steps
  cases hlayers : p.layers with
  | nil => simp [hlayers] at hphase
  | cons l ls =>
    rw [hlayers, List.head?_cons, Option.some.injEq] at hphase
    subst hphase
    rw [hlayers, List.map_cons, builtFor, List.cons_append] at hsteps
    cases rest with
    | nil => simp at hsteps
    | cons layer rest =>
      rw [List.map_cons] at hsteps
      exact ⟨layer, rfl, (List.cons.inj (List.cons.inj hsteps).2).1⟩

/-- There is a first phase if there is a level below the top. -/
theorem Arranged.exists_head (hlayer : rest[0]? = some layer) :
    ∃ phase, p.layers.head? = some phase := by
  have hsteps := h.steps
  cases hlayers : p.layers with
  | nil =>
    rw [hlayers] at hsteps
    cases rest with
    | nil => cases hlayer
    | cons l rest => simp [builtFor] at hsteps
  | cons phase phases => exact ⟨phase, rfl⟩

/-- The first level below the top is the second layer, and is the first if the top is empty. -/
theorem Arranged.getElem?_eq_rest_zero (hlayer : rest[0]? = some layer) (hne : layer ≠ []) :
    (layersOf d p)[if (first ++ loose).isEmpty then 0 else 1]? = some layer := by
  obtain ⟨rest, rfl⟩ : ∃ rest', rest = layer :: rest' := by
    cases rest with
    | nil => cases hlayer
    | cons l rest' => exact ⟨rest', by rw [Option.some.inj hlayer]⟩
  have hkept : (!layer.isEmpty) = true := by simpa using hne
  rw [h.layersOf_eq, List.filter_cons, List.filter_cons, if_pos hkept]
  by_cases hempty : (first ++ loose).isEmpty <;> simp [hempty]

variable (hn : 0 < n) (hlayer : (layersOf d p)[n]? = some layer)
include hn hlayer

/-- Cables into a level run into its layer from one of those before. -/
theorem Arranged.fedFromAbove {m k : Nat} (hk : rest[k]? = some layer) (hab : d.Feeds a b)
    (ha : Level d p.layers a m) (hb : Level d p.layers b (k + 1)) (hmk : m < k + 1) :
    FedFromAbove d (layersOf d p) n := by
  obtain ⟨i, j, hi, hj, hij⟩ := h.layerOf?_lt ha hb hmk
  rw [h.layerOf?_eq_some_iff] at hi hj
  have hbn : InLayer (layersOf d p) b n := ⟨layer, hlayer, (h.mem_iff_level hk).2 hb⟩
  obtain rfl := h.inLayer_unique hj hbn
  exact ⟨a, b, i, hij, hi, hj, hab⟩

/-- The layer of the first phase is the second one if it is not the first. -/
theorem Arranged.index_eq_one (hk : rest[0]? = some layer) : n = 1 ∧ first ++ loose ≠ [] := by
  obtain ⟨hne, -⟩ := h.exists_level hn hlayer
  obtain ⟨x, hx⟩ := List.exists_mem_of_ne_nil _ hne
  have hindex := h.inLayer_unique ⟨layer, hlayer, hx⟩ ⟨layer, h.getElem?_eq_rest_zero hk hne, hx⟩
  by_cases hempty : (first ++ loose).isEmpty
  · rw [if_pos hempty] at hindex
    omega
  · rw [if_neg hempty] at hindex
    exact ⟨hindex, by simpa using hempty⟩

end Arranged

/-- The layer of that index is that of the first phase, no step of which has an input magnet, below
shapes that are left over. -/
structure Unfed (d : Diagram α) (p : Phases) (n : Nat) : Prop where
  index : n = 1
  inputless : ∃ phase, p.layers.head? = some phase ∧
    ∀ id ∈ phase, ∃ s, d.shape? id = some s ∧ s.inputs = []
  loose : ∃ id ∈ leftOver d p, InLayer (layersOf d p) id 0

/-- Of the shapes one level below the top, cables lead to the steps of the first phase. -/
theorem Level.inLayer_zero (hs : d.Sound []) (hb : Level d p.layers b 1) (hab : d.Feeds a b) :
    InLayer p.layers b 0 := by
  generalize hk : 1 = k at hb
  cases hb with
  | step hb =>
    obtain rfl := Nat.succ.inj hk
    exact hb
  | output => omega
  | input hin =>
    obtain ⟨c, s, t, hc, -, rfl⟩ := hab
    rcases hs.kind_of_dest hc with hstep | hout
    · simp [not_isStep_of_isInput hin] at hstep
    · simp [not_isOutput_of_isInput hin] at hout

omit [Scalar α] in
/-- The shapes of the highest level feed the first phase. -/
theorem Level.feeds_of_zero (h : Level d p.layers id 0) :
    ∃ b, InLayer p.layers b 0 ∧ d.Feeds id b := by
  generalize hk : 0 = k at h
  cases h with
  | step => cases hk
  | output => cases hk
  | input _ hb hfeeds => exact ⟨_, hk ▸ hb, hfeeds⟩

section Unfed

variable (hs : d.Sound []) (hp : Phases.Layered d p)
include hs hp

/-- Below shapes that are left over there is the layer of the first phase. -/
theorem Unfed.exists_layer (h : Unfed d p n) :
    ∃ layer, (layersOf d p)[n]? = some layer ∧ ∀ b, b ∈ layer ↔ Level d p.layers b 1 := by
  obtain ⟨first, rest, harranged⟩ := exists_arranged_leftOver hs hp
  obtain ⟨rfl, ⟨phase, hphase, -⟩, x, hx, -⟩ := h
  obtain ⟨layer, hrest, hsteps⟩ := harranged.exists_phase hphase
  have hne : layer ≠ [] := by
    rintro rfl
    exact hp.ne_nil phase (List.mem_of_mem_head? hphase) hsteps.symm
  have htop : ¬ (first ++ leftOver d p).isEmpty := by
    simpa using fun _ => List.ne_nil_of_mem hx
  have hone := harranged.getElem?_eq_rest_zero hrest hne
  rw [if_neg htop] at hone
  exact ⟨layer, hone, fun b => harranged.mem_iff_level hrest⟩

/-- Nothing feeds steps without input magnets. -/
theorem Unfed.not_fedFromAbove (h : Unfed d p n) : ¬ FedFromAbove d (layersOf d p) n := by
  obtain ⟨layer, hlayer, hlevel⟩ := h.exists_layer hs hp
  rintro ⟨a, b, -, -, -, ⟨l, hl, hb⟩, hab⟩
  obtain rfl := Option.some.inj (hlayer.symm.trans hl)
  obtain ⟨phase, hphase, hb⟩ := ((hlevel b).1 hb).inLayer_zero hs hab
  obtain ⟨phase', hphase', hinputs⟩ := h.inputless
  rw [List.head?_eq_getElem?, hphase, Option.some.injEq] at hphase'
  subst hphase'
  obtain ⟨s, hshape, hnone⟩ := hinputs b hb
  exact inputs_ne_nil_of_feeds hs hab hshape hnone

/-- A layer that is not fed is that of the first phase. -/
theorem unfed_of_not_fedFromAbove (hcabled : ∀ id ∈ d.steps, Phases.Cabled d id) (hn : 0 < n)
    (hlayer : (layersOf d p)[n]? = some layer) (h : ¬ FedFromAbove d (layersOf d p) n) :
    Unfed d p n := by
  have honce := stepsOnce_layers hs hp
  obtain ⟨first, rest, harranged⟩ := exists_arranged_leftOver hs hp
  obtain ⟨hne, k, hk⟩ := harranged.exists_level hn hlayer
  cases k with
  | succ k =>
    obtain ⟨x, hx⟩ := List.exists_mem_of_ne_nil _ hne
    obtain ⟨a, b, m, hab, ha, hm, hb⟩ :=
      exists_feeds_of_level hs hp ((harranged.mem_iff_level hk).1 hx)
    exact absurd (harranged.fedFromAbove hn hlayer hk hab ha hb hm) h
  | zero =>
    obtain ⟨hindex, htop⟩ := harranged.index_eq_one hn hlayer hk
    obtain ⟨phase, hphase⟩ := harranged.exists_head hk
    have hphase' : ∀ {b}, InLayer p.layers b 0 ↔ b ∈ phase := by
      intro b
      rw [InLayer, ← List.head?_eq_getElem?, hphase]
      simp
    have hinputs : ∀ b ∈ phase, ∃ s, d.shape? b = some s ∧ s.inputs = [] := by
      intro b hb
      have hstep := honce.of_inLayer (hphase'.2 hb)
      obtain ⟨s, hshape, -⟩ := has_iff.1 hstep
      refine ⟨s, hshape, ?_⟩
      by_contra hinput
      obtain ⟨a, hab⟩ := exists_feeds_of_cabled hs (hcabled b (hs.mem_steps.2 hstep)) hshape hinput
      have hkinds : ¬ (d.has Shape.isInput a = true ∧ d.has Shape.isOutput b = true) := by
        simp [not_isOutput_of_isStep hstep]
      obtain ⟨m, j, ha, hb', hlt⟩ := exists_level_of_feeds hs hp hab hkinds
      obtain rfl := hb'.unique hs honce (.step (hphase'.2 hb))
      exact h (harranged.fedFromAbove hn hlayer hk hab ha hb' hlt)
    -- so no input has a level above the phase, and only left-over shapes stand there
    have hfirst : first = [] := by
      refine List.eq_nil_iff_forall_not_mem.2 fun x hx => ?_
      obtain ⟨b, hb, hab⟩ := ((harranged.inLayer_iff x 0).1 ⟨first, rfl, hx⟩).feeds_of_zero
      obtain ⟨s, hshape, hnone⟩ := hinputs b (hphase'.1 hb)
      exact inputs_ne_nil_of_feeds hs hab hshape hnone
    rw [hfirst, List.nil_append] at htop
    obtain ⟨x, hx⟩ := List.exists_mem_of_ne_nil _ htop
    exact ⟨hindex, ⟨phase, hphase, hinputs⟩, x, hx,
      harranged.layerOf?_eq_some_iff.1 (harranged.layerOf?_loose hx)⟩

/-- Of the layers after the first, all but that one are fed from above. -/
theorem fedFromAbove_iff (hcabled : ∀ id ∈ d.steps, Phases.Cabled d id) (hn : 0 < n)
    (hlayer : (layersOf d p)[n]? = some layer) :
    FedFromAbove d (layersOf d p) n ↔ ¬ Unfed d p n := by
  constructor
  · intro hfrom hunfed
    exact hunfed.not_fedFromAbove hs hp hfrom
  · intro hunfed
    by_contra hnot
    exact hunfed (unfed_of_not_fedFromAbove hs hp hcabled hn hlayer hnot)

end Unfed

/-! ## Layers without a middle -/

variable {d : Diagram Double}

/-- The first layer is placed around zero. -/
theorem placeLayers_singleton (d : Diagram Double) (settings : Settings Double)
    (top : List ShapeId) : placeLayers d settings [top] = .ok (putLayer settings 0 0 top []) := by
  have hzero : Scalar.Finite (0 : Double) := by decide +kernel
  rw [placeLayers, placeFrom_cons, middle, if_pos rfl, if_pos hzero]
  rfl

/-- Only the first layer comes before the one that is not fed, so that one is reached. -/
theorem Unfed.exists_reaches (h : Unfed d p n) (hs : d.Sound []) (hp : Phases.Layered d p)
    (settings : Settings Double) :
    ∃ layer placed, Reaches d settings (layersOf d p) n layer placed := by
  obtain ⟨layer, hlayer, -⟩ := h.exists_layer hs hp
  obtain ⟨x, -, top, htop, -⟩ := h.loose
  obtain rfl := h.index
  refine ⟨layer, putLayer settings 0 0 top [], hlayer, ?_⟩
  rw [List.take_one, List.head?_eq_getElem?, htop]
  exact placeLayers_singleton d settings top

/-- No mean can be taken of no coordinates, so such a diagram has no layout. -/
theorem placeLayers_of_unfed (hs : d.Sound []) (hp : Phases.Layered d p) (h : Unfed d p n)
    (settings : Settings Double) :
    placeLayers d settings (layersOf d p) = .error (.noCentre n) := by
  obtain ⟨layer, placed, hreach⟩ := h.exists_reaches hs hp settings
  have hmiddle : feedingCoordinates d placed layer = [] := by
    by_contra hne
    have hfrom := (feedingCoordinates_ne_nil_iff_fedFromAbove hs.toWired hreach).1 hne
    exact h.not_fedFromAbove hs hp hfrom
  have hindex : n ≠ 0 := by
    rw [h.index]
    exact Nat.one_ne_zero
  have hnan : ¬ Scalar.Finite (mean ([] : List Double)) := by decide +kernel
  rw [hreach.placeLayers_eq, placeFrom_cons, middle, if_neg hindex, hmiddle, if_neg hnan]

/-- In a reachable diagram, a layer after the first is reached without a coordinate to take the mean
of just when it is that of an inputless first phase below shapes that are left over, and such a layer
is reached. A cable from a layer above ends in each of the others, reached or not. -/
theorem feedingCoordinates_eq_nil_iff (h : d.Reachable) (hp : Phases.compute d = .ok p)
    (settings : Settings Double) :
    (∀ n layer placed, 0 < n → Reaches d settings (layersOf d p) n layer placed →
      (feedingCoordinates d placed layer = [] ↔ Unfed d p n)) ∧
    (∀ n, Unfed d p n → ∃ layer placed, Reaches d settings (layersOf d p) n layer placed) ∧
    ∀ n layer, 0 < n → (layersOf d p)[n]? = some layer → ¬ Unfed d p n →
      FedFromAbove d (layersOf d p) n := by
  have hs := h.sound
  have hlayered := Phases.layered_of_compute hs hp
  have hcabled := Phases.cabled_of_compute hs hp
  refine ⟨?_, ?_, ?_⟩
  · intro n layer placed hn hreach
    have hfed := feedingCoordinates_ne_nil_iff_fedFromAbove hs.toWired hreach
    rw [← not_iff_not, ← ne_eq, hfed]
    exact fedFromAbove_iff hs hlayered hcabled hn hreach.layer
  · intro n hunfed
    exact hunfed.exists_reaches hs hlayered settings
  · intro n layer hn hlayer
    exact (fedFromAbove_iff hs hlayered hcabled hn hlayer).2

/-- An input that feeds nothing beside two steps, of which the first has no input magnets and feeds
the second. -/
def besideInput : List (Change Double) :=
  [.addShape (.rawInput "r" Point.origin),
   .addShape (.step "f" [] [⟨"y", none⟩] Point.origin),
   .addShape (.step "g" [⟨"x", none⟩] [⟨"z", none⟩] Point.origin),
   .connect ⟨⟨1⟩, .output, 0⟩ ⟨⟨2⟩, .input, 0⟩]

theorem after_besideInput : blank.after besideInput =
    (blank.after (besideInput.take 3)).join ⟨⟨1⟩, .output, 0⟩ ⟨⟨2⟩, .input, 0⟩ := by
  rw [← run_connect_of_successors_eq_nil rfl rfl rfl rfl rfl rfl (by decide) rfl]
  rfl

/-- The layer of the first step is reached and has no middle, and that of the second step, which is
not reached then, is fed. -/
theorem feedingCoordinates_besideInput :
    ((blank.after besideInput).Reachable ∧
      Phases.compute (blank.after besideInput) = .ok ⟨[[⟨1⟩], [⟨2⟩]]⟩ ∧
      layersOf (blank.after besideInput) ⟨[[⟨1⟩], [⟨2⟩]]⟩ = [[⟨0⟩], [⟨1⟩], [⟨2⟩]]) ∧
    (∃ placed, Reaches (blank.after besideInput) .standard [[⟨0⟩], [⟨1⟩], [⟨2⟩]] 1 [⟨1⟩] placed ∧
      feedingCoordinates (blank.after besideInput) placed [⟨1⟩] = []) ∧
    FedFromAbove (blank.after besideInput) [[⟨0⟩], [⟨1⟩], [⟨2⟩]] 2 := by
  have hreachable : (blank.after besideInput).Reachable := by
    refine ⟨_, ?_, rfl⟩
    simp [besideInput, Change.Built, Shape.Built.rawInput, Shape.Built.step]
  have hcompute : Phases.compute (blank.after besideInput) = .ok ⟨[[⟨1⟩], [⟨2⟩]]⟩ := by
    rw [after_besideInput]
    rfl
  have hlayers : layersOf (blank.after besideInput) ⟨[[⟨1⟩], [⟨2⟩]]⟩ = [[⟨0⟩], [⟨1⟩], [⟨2⟩]] := by
    rw [after_besideInput]
    rfl
  have hunfed : Unfed (blank.after besideInput) ⟨[[⟨1⟩], [⟨2⟩]]⟩ 1 := by
    refine ⟨rfl, ⟨[⟨1⟩], rfl, ?_⟩, ⟨0⟩, ?_, ?_⟩
    · simp only [List.mem_singleton, forall_eq, after_besideInput]
      exact ⟨_, rfl, rfl⟩
    · rw [after_besideInput]
      decide +kernel
    · rw [hlayers]
      exact ⟨[⟨0⟩], rfl, List.mem_singleton_self _⟩
  obtain ⟨hnil, hreached, hfed⟩ := feedingCoordinates_eq_nil_iff hreachable hcompute .standard
  obtain ⟨layer, placed, hreach⟩ := hreached 1 hunfed
  have hempty := (hnil 1 layer placed Nat.one_pos hreach).2 hunfed
  have hlater := hfed 2 [⟨2⟩] Nat.two_pos (by rw [hlayers]; rfl) fun h => absurd h.index (by decide)
  rw [hlayers] at hreach hlater
  cases hreach.layer
  exact ⟨⟨hreachable, hcompute, hlayers⟩, ⟨placed, hreach, hempty⟩, hlater⟩

end Layout

end Patchbay
