import Patchbay.Proofs.Geometry.Boxes
import Patchbay.Layout.Placement

/-!
# Fitting the canvas

On scalars without rounding, a layout ends with the centres of all shapes within the margins of the
canvas (`within_fitToCanvas`). The extent of the layout covers the outline of each shape, and so it
holds the centres. It is moved with its middle onto the middle of the canvas, and scaled by factors
that take it to no more than the room within the margins. The factors exist because no shape but the
zone is so small that the extent could not be divided by, and the lesser of the two, if both axes
are scaled alike, serves both.

The places come as a list, in the order in which they are gone through. The conclusion is about each
such list.
-/

namespace Patchbay

variable {α : Type} [ExactScalar α] {settings : Settings α}

/-! ## Usable settings and sizes -/

/-- Usable settings leave room within the margins. -/
theorem Settings.room_of_validate (h : settings.validate = .ok ()) :
    (2 : Nat) * settings.margin < settings.width ∧
      (2 : Nat) * settings.margin < settings.height := by
  rw [← lt_min_iff, ← Scalar.lesser_eq_min]
  by_contra hmargin
  -- the margin is checked last, and so one of the checks has failed
  unfold validate at h
  rw [if_pos (not_lt.1 hmargin)] at h
  dsimp only at h
  split_ifs at h <;> cases h

/-- Whatever can move is not tiny. -/
theorem Shape.one_le_size {s : Shape α} (h : s.isFixed = false) :
    1 ≤ s.size.1 ∧ 1 ≤ s.size.2 := by
  unfold Shape.size
  unfold Shape.isFixed at h
  cases hkind : s.kind with
  | rawInput | output =>
    simp only [sizeFor, cylinderRadius, cylinderBody, cylinderCap, Scalar.half_eq]
    constructor <;> norm_num
  | typedInput =>
    simp only [sizeFor, prismWidth, prismHeight]
    constructor <;> norm_num
  | step =>
    simp only [sizeFor, stepWidth, magnetSpacing, stepPadding]
    have hrows : (0 : α) ≤ (max (max s.inputs.length s.outputs.length) 1 : Nat) * (18 : Nat) := by
      positivity
    constructor
    · norm_num
    · push_cast at hrows ⊢
      linarith
  | zone =>
    rw [hkind] at h
    cases h

namespace Layout

variable {d : Diagram α} {placed : Placement α} {extent : Box α}

/-! ## One axis -/

/-- A stretch that is scaled to no more than the given length, and moved with its middle onto the
middle of it, keeps its points. -/
theorem between_scaled {start size room length factor t : α}
    (ht : Scalar.Between start (start + size) t) (hfactor : 0 ≤ factor)
    (hfits : size * factor ≤ length) :
    Scalar.Between room (room + length)
      (room + Scalar.half length + (t - (start + Scalar.half size)) * factor) := by
  obtain ⟨hlow, hhigh⟩ := ht
  simp only [Scalar.half_eq]
  have hup : (t - (start + size / 2)) * factor ≤ size / 2 * factor := by
    gcongr
    linarith
  have hdown : (start + size / 2 - t) * factor ≤ size / 2 * factor := by
    gcongr
    linarith
  constructor <;> linarith

/-- A factor that is not too great for the used length. -/
theorem mul_le_of_le_div {available used factor : α} (hused : 0 < used)
    (h : factor ≤ available / used) : used * factor ≤ available := by
  rwa [le_div_iff₀ hused, mul_comm] at h

theorem ratio?_eq_some {available used : α} (h : 1 ≤ used) :
    ratio? available used = some (available / used) :=
  if_pos (Scalar.tiny_lt_one.trans_le h)

theorem usableRatio_some (a : α) : usableRatio (some a) = a := by
  rw [usableRatio, Option.filter_some, if_pos (decide_eq_true (Scalar.finite a))]
  rfl

/-! ## The extent -/

/-- The extent covers the outlines of all placed shapes. -/
theorem covers_extent? (h : extent? d placed = some extent) {id : ShapeId} {c : Point α}
    (hmem : (id, c) ∈ placed) {s : Shape α} (hs : d.shape? id = some s) :
    extent.Covers ⟨c.x - Scalar.half s.size.1, c.y - Scalar.half s.size.2, s.size.1, s.size.2⟩ := by
  unfold extent? at h
  dsimp only at h
  split at h
  · cases h
  · rename_i b rest hboxes
    cases h
    refine Box.covers_foldl_union rest b _ ?_
    rw [← hboxes]
    refine List.mem_filterMap.2 ⟨(id, c), hmem, ?_⟩
    simp [hs]

/-- Places of shapes that are there have an extent. -/
theorem eq_nil_of_extent? (h : extent? d placed = none)
    (hlive : ∀ x ∈ placed, (d.shape? x.1).isSome) : placed = [] := by
  unfold extent? at h
  dsimp only at h
  split at h
  · rename_i hboxes
    refine List.eq_nil_iff_forall_not_mem.2 fun x hx => ?_
    obtain ⟨s, hs⟩ := Option.isSome_iff_exists.1 (hlive x hx)
    have hnone := List.filterMap_eq_nil_iff.1 hboxes x hx
    rw [hs] at hnone
    cases hnone
  · cases h

/-! ## Both axes -/

/-- The factors that the extent is scaled by are not negative, and take it into the room. -/
structure Fits (room extent : Box α) (sx sy : α) : Prop where
  across : 0 ≤ sx ∧ extent.width * sx ≤ room.width
  down : 0 ≤ sy ∧ extent.height * sy ≤ room.height

theorem fits_ratios (room : Box α) (keepAspect : Bool) (hroom : 0 ≤ room.width ∧ 0 ≤ room.height)
    (hextent : 1 ≤ extent.width ∧ 1 ≤ extent.height) :
    let rx := ratio? room.width extent.width
    let ry := ratio? room.height extent.height
    let both := lesserRatio? rx ry
    Fits room extent (usableRatio (if keepAspect then both else rx))
      (usableRatio (if keepAspect then both else ry)) := by
  have hw : 0 < extent.width := zero_lt_one.trans_le hextent.1
  have hh : 0 < extent.height := zero_lt_one.trans_le hextent.2
  have hx : 0 ≤ room.width / extent.width := div_nonneg hroom.1 hw.le
  have hy : 0 ≤ room.height / extent.height := div_nonneg hroom.2 hh.le
  rw [ratio?_eq_some hextent.1, ratio?_eq_some hextent.2]
  dsimp only [lesserRatio?]
  rw [Scalar.lesser_eq_min]
  cases keepAspect with
  | true =>
    rw [if_pos rfl, if_pos rfl, usableRatio_some]
    exact ⟨⟨le_min hx hy, mul_le_of_le_div hw (min_le_left _ _)⟩,
      ⟨le_min hx hy, mul_le_of_le_div hh (min_le_right _ _)⟩⟩
  | false =>
    rw [if_neg Bool.false_ne_true, if_neg Bool.false_ne_true, usableRatio_some, usableRatio_some]
    exact ⟨⟨hx, mul_le_of_le_div hw le_rfl⟩, ⟨hy, mul_le_of_le_div hh le_rfl⟩⟩

/-- The extent holds the places of all shapes, and reaches as far as the outline of each. -/
theorem contains_extent? (h : extent? d placed = some extent) {id : ShapeId} {c : Point α}
    (hmem : (id, c) ∈ placed) {s : Shape α} (hs : d.shape? id = some s)
    (hsize : 1 ≤ s.size.1 ∧ 1 ≤ s.size.2) :
    extent.Contains c ∧ 1 ≤ extent.width ∧ 1 ≤ extent.height := by
  obtain ⟨hleft, hright, htop, hbottom⟩ := covers_extent? h hmem hs
  simp only [Box.right, Box.bottom, Scalar.half_eq] at hleft hright htop hbottom
  have hx : c.x ≤ extent.x + extent.width := by linarith
  have hy : c.y ≤ extent.y + extent.height := by linarith
  refine ⟨⟨⟨?_, hx⟩, ⟨?_, hy⟩⟩, ?_, ?_⟩ <;> linarith

/-- **Fitting the canvas.** With usable settings and no zone in the diagram, all places of shapes
are taken to places within the margins of the canvas. -/
theorem within_fitToCanvas (hvalid : settings.validate = .ok ())
    (hzone : ∀ id s, d.shape? id = some s → s.isFixed = false)
    (hlive : ∀ x ∈ placed, (d.shape? x.1).isSome) :
    List.Forall₂ (fun x y => y.1 = x.1 ∧
        Scalar.Between settings.margin (settings.width - settings.margin) y.2.x ∧
        Scalar.Between settings.margin (settings.height - settings.margin) y.2.y)
      placed (fitToCanvas d settings placed) := by
  have hflat : ∀ x ∈ placed.mapPlaces Isometric.canvas, (d.shape? x.1).isSome := by
    intro x hx
    obtain ⟨y, hy, rfl⟩ := List.mem_map.1 hx
    exact hlive y hy
  unfold fitToCanvas
  dsimp only
  split
  · rename_i hnone
    have hnil := List.map_eq_nil_iff.1 (eq_nil_of_extent? hnone hflat)
    subst hnil
    exact .nil
  · rename_i extent hextent
    rw [Placement.mapPlaces, Placement.mapPlaces, List.map_map]
    refine List.forall₂_map_right_iff.2 (List.forall₂_same.2 fun ⟨id, q⟩ hmem => ⟨rfl, ?_⟩)
    have hmem' : (id, Isometric.canvas q) ∈ placed.mapPlaces Isometric.canvas :=
      List.mem_map.2 ⟨(id, q), hmem, rfl⟩
    obtain ⟨s, hs⟩ := Option.isSome_iff_exists.1 (hlive _ hmem)
    obtain ⟨hcontains, hsizes⟩ :=
      contains_extent? hextent hmem' hs (Shape.one_le_size (hzone id s hs))
    obtain ⟨hwidth, hheight⟩ := Settings.room_of_validate hvalid
    have hfits := fits_ratios (target settings) settings.keepAspect
      ⟨sub_nonneg.2 hwidth.le, sub_nonneg.2 hheight.le⟩ hsizes
    have hend : ∀ size margin : α, margin + (size - (2 : Nat) * margin) = size - margin := by
      intro size margin
      push_cast
      ring
    rw [← hend settings.width, ← hend settings.height]
    exact ⟨between_scaled hcontains.1 hfits.across.1 hfits.across.2,
      between_scaled hcontains.2 hfits.down.1 hfits.down.2⟩

/-- An input and a step that it feeds. -/
def inputAndStep : Diagram ℚ :=
  (Diagram.blank.addShape (.rawInput "r" (⟨0, 0⟩ : Point ℚ))).addShape
    (.step "f" [⟨"x", none⟩] [⟨"y", none⟩] (⟨0, 0⟩ : Point ℚ))

theorem within_inputAndStep :
    ((Settings.standard : Settings ℚ).validate = .ok () ∧
      (∀ id s, inputAndStep.shape? id = some s → s.isFixed = false) ∧
      ∀ x ∈ [((⟨1⟩ : ShapeId), (⟨0, 120⟩ : Point ℚ)), (⟨0⟩, ⟨900, 0⟩)],
        (inputAndStep.shape? x.1).isSome) ∧
    List.Forall₂ (fun x y => y.1 = x.1 ∧ Scalar.Between 40 (800 - 40) y.2.x ∧
        Scalar.Between 40 (600 - 40) y.2.y)
      [((⟨1⟩ : ShapeId), (⟨0, 120⟩ : Point ℚ)), (⟨0⟩, ⟨900, 0⟩)]
      (fitToCanvas inputAndStep .standard [(⟨1⟩, ⟨0, 120⟩), (⟨0⟩, ⟨900, 0⟩)]) := by
  have hvalid : (Settings.standard : Settings ℚ).validate = .ok () := by decide +kernel
  have hzone : ∀ id s, inputAndStep.shape? id = some s → s.isFixed = false := by
    rintro ⟨_ | _ | n⟩ s hs <;> cases hs <;> rfl
  have hlive : ∀ x ∈ [((⟨1⟩ : ShapeId), (⟨0, 120⟩ : Point ℚ)), (⟨0⟩, ⟨900, 0⟩)],
      (inputAndStep.shape? x.1).isSome := by
    decide +kernel
  exact ⟨⟨hvalid, hzone, hlive⟩, within_fitToCanvas hvalid hzone hlive⟩

end Layout

end Patchbay
