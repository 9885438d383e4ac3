import Patchbay.Proofs.Layout.Feeding
import Patchbay.Proofs.Moderate

/-!
# Bounds of a layout

How far out a layout puts shapes if the numbers are moderate. The shapes of a layer are spread
around its middle, the mean of the coordinates of magnets that have been placed before. These are
seen along the layer where they were put, because the canvas is turned and turned back
(`within_along_canvas`). So each layer adds to the coordinates what is added for the first one, and
does not double them (`Spread`), and after all layers they are far from overflowing.

Fitting the canvas divides by the extent of the places only if that is not tiny, which limits the
places on the canvas as well (`nearby_fitToCanvas`).
-/

namespace Patchbay

open Double

/-! ## The isometric view -/

namespace Isometric

theorem isNumber_tan30 : (tan30 : Double).IsNumber := by decide +kernel

theorem isNumber_cos30 : (cos30 : Double).IsNumber := by decide +kernel

theorem value_tan30 : (tan30 : Double).value = 5200308914369309 / 9007199254740992 := by
  have hbits : (tan30 : Double) = ⟨4603375528459645725⟩ := by decide +kernel
  rw [hbits]
  change ((5200308914369309 : ℕ) : ℚ) * 2 ^ (-53 : ℤ) = _
  norm_num

theorem value_cos30 : (cos30 : Double).value = 3900231685776981 / 4503599627370496 := by
  have hbits : (cos30 : Double) = ⟨4605975682916830378⟩ := by decide +kernel
  rw [hbits]
  change ((7800463371553962 : ℕ) : ℚ) * 2 ^ (-53 : ℤ) = _
  norm_num

theorem within_tan30 : Within 1 0 (tan30 : Double) :=
  ⟨isNumber_tan30, by rw [value_tan30]; norm_num [abs_of_pos]⟩

theorem within_cos30 : Within 1 0 (cos30 : Double) :=
  ⟨isNumber_cos30, by rw [value_cos30]; norm_num [abs_of_pos]⟩

/-- A place on the canvas is seen where it was put, but for a little: the coordinate along the layer
hardly changes. -/
theorem within_along_canvas {n : ℕ} (hn : n ≤ 2 ^ 16) {v o : Point Double} (hx : Within n 84 v.x)
    (hy : Within 1 80 v.y) (ho : o.Nearby 1 26) :
    Within (2 * n + 1) 83 (along (canvas v + o)) := by
  have hright : Near 100 0 v.x.value v.x :=
    (hx.mono ⟨by decide, by change n ≤ 1 * 2 ^ 16; omega⟩).near
  have hdeep : Near 100 0 v.y.value v.y := (hy.mono (by decide)).near
  have hoffsetX : Near 101 0 o.x.value o.x := (ho.x.mono (by decide)).near
  have hoffsetY : Near 101 0 o.y.value o.y := (ho.y.mono (by decide)).near
  have hcanvasX := (hright.add hdeep (by decide)).mul within_cos30 (by decide)
  have hcanvasY := (hdeep.sub hright (by decide)).half (by decide)
  have hslope := (hcanvasX.add hoffsetX (by decide)).mul_left within_tan30 (by decide)
  have hcoordinate := hslope.sub (hcanvasY.add hoffsetY (by decide)) (by decide)
  refine ⟨hcoordinate.within.isNumber, ?_⟩
  have herror := hcoordinate.le
  change |(along (canvas v + o)).value - _| ≤ _ at herror
  generalize (along (canvas v + o)).value = r at herror
  have hx := hx.le
  have hy := hy.le
  have hox := ho.x.le
  have hoy := ho.y.le
  have hn : (n : ℚ) ≤ 65536 := by exact_mod_cast hn
  rw [value_cos30, value_tan30] at herror
  push_cast at hx hy hox hoy ⊢
  rw [abs_le] at *
  norm_num at herror hx hy hox hoy ⊢
  constructor <;> linarith

end Isometric

namespace Layout

open Diagram

variable {d : Diagram Double} {settings : Settings Double} {placed placed' : Placement Double}
  {layer : List ShapeId} {layers : List (List ShapeId)} {n k : ℕ} {m : ℤ}

/-! ## The middle of a layer -/

theorem within_sum {xs : List Double} (h : ∀ x ∈ xs, Within k m x)
    (hroom : Room (xs.length * k) m) : Within (xs.length * k) m (xs.foldl (· + ·) 0) := by
  induction xs using List.reverseRecOn with
  | nil => exact within_zero _ _
  | append_singleton xs x ih =>
    rw [List.length_append, List.length_singleton, Nat.add_mul, Nat.one_mul] at hroom ⊢
    rw [List.foldl_append]
    have hinit := ih (fun y hy => h y (List.mem_append_left _ hy))
      ⟨(Nat.le_add_right _ k).trans hroom.1, hroom.2⟩
    exact hinit.add (h x (by simp)) hroom

/-- The mean is no further from zero than the coordinates. -/
theorem within_mean {xs : List Double} (hne : xs ≠ []) (h : ∀ x ∈ xs, Within k m x)
    (hlength : xs.length < 2 ^ 53) (hroom : Room (xs.length * k) m) : Within k m (mean xs) := by
  have hsum := within_sum h hroom
  obtain ⟨hnumber, hvalue⟩ := isNumber_natCast hlength
  have hlow : 1 ≤ xs.length := List.length_pos_of_ne_nil hne
  have hroom' : Room k m := ⟨(Nat.le_mul_of_pos_left k hlow).trans hroom.1, hroom.2⟩
  have hpos : (0 : ℚ) < xs.length := by exact_mod_cast hlow
  have hquotient : |(xs.foldl (· + ·) 0).value / (xs.length : Double).value| ≤ k * 2 ^ m := by
    have hle := hsum.le
    rw [Nat.cast_mul, mul_assoc] at hle
    rwa [hvalue, abs_div, abs_of_pos hpos, div_le_iff₀' hpos]
  have hne' : (xs.length : Double).value ≠ 0 := by
    rw [hvalue]
    exact hpos.ne'
  exact (isRounded_div hsum.isNumber hnumber hne' hroom'.high
    (hquotient.trans hroom'.le)).within hroom' hquotient

/-- Places that layers have after the layers before: the coordinate along the layers grows by a
fixed bound with each layer. -/
def Spread (n : ℕ) (placed : Placement Double) : Prop :=
  ∀ x ∈ placed, Within n 84 x.2.x ∧ Within 1 80 x.2.y

theorem mem_of_place? {id : ShapeId} {q : Point Double} (h : placed.place? id = some q) :
    (id, q) ∈ placed := by
  obtain ⟨⟨id', q'⟩, hfind, rfl⟩ := Option.map_eq_some_iff.1 h
  have hid := List.find?_some hfind
  rw [decide_eq_true_eq] at hid
  rw [← hid]
  exact List.mem_of_find?_eq_some hfind

theorem length_flatMap_le {β γ : Type} {xs : List β} {f : β → List γ} {i j : ℕ}
    (hxs : xs.length ≤ i) (hf : ∀ x ∈ xs, (f x).length ≤ j) : (xs.flatMap f).length ≤ i * j := by
  rw [List.length_flatMap]
  refine (List.sum_le_card_nsmul _ j ?_).trans ?_
  · intro y hy
    obtain ⟨x, hx, rfl⟩ := List.mem_map.1 hy
    exact hf x hx
  · rw [List.length_map, smul_eq_mul]
    exact Nat.mul_le_mul_right j hxs

/-- An input magnet has one cable at most, so there are not too many coordinates. -/
theorem length_feedingCoordinates (hs : d.Sound []) (hd : d.Moderate)
    (hlayer : layer.length ≤ 2 ^ 16) : (feedingCoordinates d placed layer).length ≤ 2 ^ 32 := by
  have hshapes := (List.length_filterMap_le d.shape? layer).trans hlayer
  refine length_flatMap_le (i := 2 ^ 16) (j := 2 ^ 16) hshapes ?_
  intro s hshape
  obtain ⟨id, -, hshape⟩ := List.mem_filterMap.1 hshape
  have hmagnets := (hd.shapes id s hshape).magnets .input
  refine (List.length_filterMap_le _ _).trans (length_flatMap_le (j := 1) hmagnets ?_)
  intro magnet hmagnet
  obtain ⟨i, hi⟩ := List.mem_iff_getElem?.1 hmagnet
  exact hs.single (u := ⟨id, .input, i⟩) ((magnet?_of_shape? hshape).trans hi) rfl

theorem within_feedingCoordinates (hs : d.Sound []) (hd : d.Moderate) (hn : n ≤ 2 ^ 16)
    (hplaced : Spread n placed) :
    ∀ x ∈ feedingCoordinates d placed layer, Within (2 * n + 1) 83 x := by
  intro x hx
  obtain ⟨s, -, hx⟩ := List.mem_flatMap.1 hx
  obtain ⟨c, -, hx⟩ := List.mem_filterMap.1 hx
  obtain ⟨cable, -, hx⟩ := Option.bind_eq_some_iff.1 hx
  obtain ⟨centre, hcentre, hx⟩ := Option.bind_eq_some_iff.1 hx
  obtain ⟨magnet, hmagnet, hx⟩ := Option.bind_eq_some_iff.1 hx
  obtain ⟨shape, hshape, hi⟩ := Option.bind_eq_some_iff.1 hmagnet
  obtain ⟨hright, hdeep⟩ := hplaced _ (mem_of_place? hcentre)
  have hconforms := hs.conforming _ _ (congrArg (Option.map Shape.body) hshape)
  have hoffset := (hd.shapes _ _ hshape).nearby_offset hconforms (List.mem_of_getElem? hi)
  rw [← Option.some.inj hx]
  exact Isometric.within_along_canvas hn hright hdeep hoffset

theorem not_finite_mean_nil : ¬ Scalar.Finite (mean ([] : List Double)) := by decide +kernel

/-- The middle of a layer, if it is finite, is about as far out as the layers before. -/
theorem within_middle (hs : d.Sound []) (hd : d.Moderate) (hn : n ≤ 2 ^ 16)
    (hlayer : layer.length ≤ 2 ^ 16) (hplaced : Spread n placed)
    (hfinite : Scalar.Finite (middle d placed n layer)) :
    Within (2 * n + 1) 83 (middle d placed n layer) := by
  unfold middle at hfinite ⊢
  split
  · exact within_zero _ _
  · rename_i hpos
    rw [if_neg hpos] at hfinite
    have hlength := @length_feedingCoordinates _ placed _ hs hd hlayer
    refine within_mean ?_ (within_feedingCoordinates hs hd hn hplaced) (by omega) ⟨?_, by decide⟩
    · intro hnil
      rw [hnil] at hfinite
      exact not_finite_mean_nil hfinite
    · calc (feedingCoordinates d placed layer).length * (2 * n + 1)
        _ ≤ 2 ^ 32 * (2 * 2 ^ 16 + 1) := Nat.mul_le_mul hlength (by omega)
        _ ≤ 2 ^ 53 := by norm_num

/-! ## Placing the layers -/

theorem Spread.put (h : Spread n placed) {id : ShapeId} {q : Point Double} (hx : Within n 84 q.x)
    (hy : Within 1 80 q.y) : Spread n (placed.put id q) := by
  intro x hmem
  rcases List.mem_append.1 hmem with hmem | hmem
  · exact h x (List.mem_filter.1 hmem).1
  · rw [List.mem_singleton.1 hmem]
    exact ⟨hx, hy⟩

/-- Shapes are not far from the middle of their layer. -/
theorem within_slot (hsettings : settings.Moderate) {centre : Double} {slot length : ℕ}
    (hslot : slot ≤ 2 ^ 16) (hlength : length ≤ 2 ^ 16) (hn : n ≤ 2 ^ 16)
    (hcentre : Within (2 * n + 1) 83 centre) :
    Within (n + 1) 84
      (centre + ((slot : Double) - Scalar.half ((length : Double) - 1)) *
        settings.nodeSpacing) := by
  have hspan := ((within_natCast hlength (by decide)).sub within_one (by decide)).half (by decide)
  have haside := ((within_natCast hslot (by decide)).sub hspan (by decide)).mul
    hsettings.nodeSpacing (by decide)
  have hsum := hcentre.add (haside.mono (m := 83) (l := 1) (by decide))
    ⟨by omega, by decide⟩
  exact hsum.mono ⟨by decide, by change _ ≤ (n + 1) * 2 ^ 1; omega⟩

theorem spread_putLayer (hsettings : settings.Moderate) {centre : Double} (hn : n ≤ 2 ^ 16)
    (hlayer : layer.length ≤ 2 ^ 16) (hcentre : Within (2 * n + 1) 83 centre)
    (hplaced : Spread n placed) : Spread (n + 1) (putLayer settings centre n layer placed) := by
  have hstart : Spread (n + 1) placed := by
    intro x hx
    obtain ⟨hright, hdeep⟩ := hplaced x hx
    exact ⟨hright.widen (Nat.le_succ n), hdeep⟩
  have hdepth : Within 1 80 ((n : Double) * settings.layerSpacing) :=
    ((within_natCast hn (by decide)).mul hsettings.layerSpacing (by decide)).mono (by decide)
  refine List.foldlRecOn _ _ hstart ?_
  intro placed hplaced x hx
  have hslot : x.2 ≤ 2 ^ 16 := by
    have := List.snd_lt_of_mem_zipIdx hx
    omega
  exact hplaced.put (within_slot hsettings hslot hlayer hn hcentre) hdepth

theorem spread_placeFrom (hs : d.Sound []) (hd : d.Moderate) (hsettings : settings.Moderate)
    (hlayers : ∀ layer ∈ layers, layer.length ≤ 2 ^ 16) (hn : n + layers.length ≤ 2 ^ 16)
    (hplaced : Spread n placed) (h : placeFrom d settings n layers placed = .ok placed') :
    Spread (n + layers.length) placed' := by
  induction layers generalizing n placed with
  | nil =>
    cases h
    exact hplaced
  | cons layer layers ih =>
    rw [List.length_cons] at hn ⊢
    rw [placeFrom_cons] at h
    split at h
    · rename_i hfinite
      have hlayer := hlayers layer List.mem_cons_self
      have hmiddle := within_middle hs hd (by omega) hlayer hplaced hfinite
      have hnext := spread_putLayer hsettings (by omega) hlayer hmiddle hplaced
      rw [← Nat.add_assoc, Nat.add_right_comm]
      exact ih (fun l hl => hlayers l (List.mem_cons_of_mem _ hl)) (by omega) hnext h
    · cases h

theorem length_putLayer {centre : Double} :
    (putLayer settings centre n layer placed).length ≤ placed.length + layer.length := by
  have hall : ∀ (xs : List (ShapeId × ℕ)) (at_ : ShapeId × ℕ → Point Double)
      (q : Placement Double),
      (xs.foldl (fun q x => q.put x.1 (at_ x)) q).length ≤ q.length + xs.length := by
    intro xs at_ q
    induction xs generalizing q with
    | nil => exact Nat.le_refl _
    | cons x xs ih =>
      have hput : (q.put x.1 (at_ x)).length ≤ q.length + 1 := by
        rw [Placement.put, List.length_append, List.length_singleton]
        exact Nat.add_le_add_right (List.length_filter_le _ _) 1
      have hrest := ih (q.put x.1 (at_ x))
      rw [List.length_cons]
      exact hrest.trans (by omega)
  refine (hall _ _ placed).trans ?_
  rw [List.length_zipIdx]

theorem length_placeFrom (h : placeFrom d settings n layers placed = .ok placed') :
    placed'.length ≤ placed.length + layers.flatten.length := by
  induction layers generalizing n placed with
  | nil =>
    cases h
    exact Nat.le_refl _
  | cons layer layers ih =>
    rw [placeFrom_cons] at h
    split at h
    · have hrest := ih h
      have hlayer := @length_putLayer settings placed layer n (middle d placed n layer)
      rw [List.flatten_cons, List.length_append]
      omega
    · cases h

/-- The places of the layers are not far out. -/
theorem spread_placeLayers (hs : d.Sound []) (hd : d.Moderate) (hsettings : settings.Moderate)
    (hnonempty : ∀ layer ∈ layers, layer ≠ []) (hlength : layers.flatten.length ≤ 2 ^ 16)
    (h : placeLayers d settings layers = .ok placed) :
    Spread (2 ^ 16) placed ∧ placed.length ≤ 2 ^ 16 := by
  have hcount : layers.length ≤ layers.flatten.length := by
    rw [List.length_flatten, ← List.length_map List.length]
    refine List.length_le_sum_of_one_le _ ?_
    intro i hi
    obtain ⟨layer, hlayer, rfl⟩ := List.mem_map.1 hi
    exact List.length_pos_of_ne_nil (hnonempty layer hlayer)
  have hlayers : ∀ layer ∈ layers, layer.length ≤ 2 ^ 16 := fun layer hlayer =>
    (List.sublist_flatten_of_mem hlayer).length_le.trans hlength
  have hspread := spread_placeFrom hs hd hsettings hlayers (by omega)
    (List.forall_mem_nil _) h
  refine ⟨fun x hx => ?_, ?_⟩
  · obtain ⟨hright, hdeep⟩ := hspread x hx
    exact ⟨hright.widen (by omega), hdeep⟩
  · have := length_placeFrom h
    simp only [List.length_nil] at this
    omega

/-! ## Fitting the canvas -/

/-- A box with a corner that is not far out, and with a limited size. -/
structure Roomy (k : ℕ) (b : Box Double) : Prop where
  x : Within 1 102 b.x
  y : Within 1 102 b.y
  width : Within k 102 b.width
  height : Within k 102 b.height

/-- The side of the smallest box around two boxes. -/
theorem within_side (hk : k ≤ 2 ^ 52) {x y w v : Double} (hx : Within 1 102 x) (hy : Within 1 102 y)
    (hw : Within (k + 1) 102 w) (hv : Within 1 102 v) :
    Within (k + 3) 102 (Scalar.greater (x + w) (y + v) - Scalar.lesser x y) := by
  have hfirst := hx.add hw ⟨by omega, by decide⟩
  have hsecond := hy.add hv (by decide)
  have hright := (hfirst.widen (l := k + 2) (by omega)).greater (hsecond.widen (by omega))
  exact hright.sub (hx.lesser hy) ⟨by omega, by decide⟩

theorem Roomy.union {b b' : Box Double} (hk : k ≤ 2 ^ 52) (h : Roomy (k + 1) b) (h' : Roomy 1 b') :
    Roomy (k + 3) (b.union b') where
  x := h.x.lesser h'.x
  y := h.y.lesser h'.y
  width := within_side hk h.x h'.x h.width h'.width
  height := within_side hk h.y h'.y h.height h'.height

theorem roomy_foldl_union {b : Box Double} {boxes : List (Box Double)}
    (hlength : boxes.length ≤ 2 ^ 16) (h : Roomy 1 b) (hboxes : ∀ b' ∈ boxes, Roomy 1 b') :
    Roomy (2 * boxes.length + 1) (boxes.foldl Box.union b) := by
  induction boxes using List.reverseRecOn with
  | nil => exact h
  | append_singleton boxes b' ih =>
    rw [List.length_append, List.length_singleton] at hlength ⊢
    rw [List.foldl_append]
    have hinit := ih (by omega) fun b'' hmem => hboxes b'' (List.mem_append_left _ hmem)
    exact hinit.union (k := 2 * boxes.length) (by omega) (hboxes b' (by simp))

/-- The places as they are on the canvas. -/
theorem nearby_canvas {p : Point Double} (hx : Within (2 ^ 16) 84 p.x) (hy : Within 1 80 p.y) :
    (Isometric.canvas p).Nearby 1 101 := by
  have hx : Within 1 100 p.x := hx.mono (by decide)
  have hy : Within 1 100 p.y := hy.mono (by decide)
  constructor
  · exact ((hx.add hy (by decide)).mul Isometric.within_cos30 (by decide)).mono (by decide)
  · exact ((hy.sub hx (by decide)).half (by decide)).mono (by decide)

theorem roomy_extent? {extent : Box Double} (hd : d.Moderate) (hlength : placed.length ≤ 2 ^ 16)
    (hplaced : ∀ x ∈ placed, x.2.Nearby 1 101)
    (h : extent? d placed = some extent) : Roomy (2 ^ 18) extent := by
  unfold extent? at h
  generalize hboxes : placed.filterMap _ = boxes at h
  have hcount : boxes.length ≤ 2 ^ 16 := by
    rw [← hboxes]
    exact (List.length_filterMap_le _ _).trans hlength
  have hroomy : ∀ b ∈ boxes, Roomy 1 b := by
    intro b hb
    rw [← hboxes] at hb
    obtain ⟨⟨id, c⟩, hmem, hb⟩ := List.mem_filterMap.1 hb
    obtain ⟨s, hs, hb⟩ := Option.bind_eq_some_iff.1 hb
    obtain ⟨hx, hy⟩ := hplaced _ hmem
    obtain ⟨hwidth, hheight⟩ := (hd.shapes id s hs).within_size
    rw [← Option.some.inj hb]
    have hedge : ∀ {a w : Double}, Within 1 101 a → Within 1 64 w →
        Within 1 102 (a - Scalar.half w) := by
      intro a w ha hw
      exact (ha.sub ((hw.half (by decide)).mono (by decide)) (l := 1) (by decide)).mono (by decide)
    exact ⟨hedge hx hwidth, hedge hy hheight, hwidth.mono (by decide), hheight.mono (by decide)⟩
  cases boxes with
  | nil => cases h
  | cons b boxes =>
    rw [List.length_cons] at hcount
    have hall := roomy_foldl_union (by omega) (hroomy b List.mem_cons_self) fun b' hb' =>
      hroomy b' (List.mem_cons_of_mem _ hb')
    rw [← Option.some.inj h]
    have hle : 2 * boxes.length + 1 ≤ 2 ^ 18 := by omega
    exact ⟨hall.x, hall.y, hall.width.widen hle, hall.height.widen hle⟩

/-- Something that is greater than the least difference is not too small to divide by. -/
theorem le_value_of_tiny_lt {a : Double} (ha : a.IsNumber) (h : Scalar.tiny < a) :
    2 ^ (-52 : ℤ) ≤ |a.value| := by
  rw [lt_iff isNumber_tiny ha, value_tiny] at h
  exact h.le.trans (le_abs_self _)

theorem within_ratio? {available used r : Double} (havailable : Within 1 66 available)
    (hused : used.IsNumber) (h : ratio? available used = some r) : Within 1 118 r := by
  unfold ratio? at h
  split at h
  · rename_i hlow
    rw [← Option.some.inj h]
    exact havailable.div hused (le_value_of_tiny_lt hused hlow) (by decide)
  · cases h

theorem within_lesserRatio? {r s : Option Double} {t : Double} (hr : ∀ a, r = some a → Within k m a)
    (hs : ∀ a, s = some a → Within k m a) (h : lesserRatio? r s = some t) : Within k m t := by
  match r, s with
  | some a, some b =>
    rw [← Option.some.inj h]
    exact (hr a rfl).lesser (hs b rfl)
  | some a, none => exact hr t h
  | none, s => exact hs t h

theorem within_usableRatio {r : Option Double} (h : ∀ a, r = some a → Within 1 118 a) :
    Within 1 118 (usableRatio r) := by
  unfold usableRatio
  rcases hr : r.filter _ with _ | a
  · exact within_one.mono (by decide)
  · exact h a (Option.filter_eq_some_iff.1 hr).1

/-- One coordinate of a place that is fitted to the canvas. -/
theorem within_fitted {goal p source ratio : Double} (hgoal : Within 1 67 goal)
    (hp : Within 1 101 p) (hsource : Within 1 121 source) (hratio : Within 1 118 ratio) :
    Within 1 242 (goal + (p - source) * ratio) := by
  have hp : Within 1 121 p := hp.mono (by decide)
  have hscaled := (hp.sub hsource (by decide)).mul hratio (by decide)
  have hgoal : Within 1 239 goal := hgoal.mono (by decide)
  exact (hgoal.add hscaled (by decide)).mono (by decide)

/-- The places on the canvas are not far out. -/
theorem nearby_fitToCanvas (hd : d.Moderate) (hsettings : settings.Moderate)
    (hplaced : Spread (2 ^ 16) placed) (hlength : placed.length ≤ 2 ^ 16) :
    ∀ x ∈ fitToCanvas d settings placed, x.2.Nearby 1 242 := by
  have hflat : ∀ x ∈ placed.mapPlaces Isometric.canvas, x.2.Nearby 1 101 := by
    intro x hx
    obtain ⟨y, hy, rfl⟩ := List.mem_map.1 hx
    exact nearby_canvas (hplaced y hy).1 (hplaced y hy).2
  unfold fitToCanvas
  dsimp only
  split
  · intro x hx
    exact (hflat x hx).mono (by decide)
  · rename_i extent hextent
    have hextent := roomy_extent? hd (by rwa [Placement.mapPlaces, List.length_map]) hflat hextent
    have htwo := within_numeral 2 (by decide)
    have hroom : ∀ {w : Double}, Within 1 64 w →
        Within 1 66 (w - ((2 : ℕ) : Double) * settings.margin) := fun hw =>
      (hw.sub (htwo.mul hsettings.margin (by decide)) (by decide)).mono (by decide)
    have hgoal : ∀ {w : Double}, Within 1 66 w →
        Within 1 67 (settings.margin + Scalar.half w) := fun hw =>
      ((hsettings.margin.mono (m := 66) (l := 1) (by decide)).add (hw.half (by decide))
        (by decide)).mono (by decide)
    have hsource : ∀ {x w : Double}, Within 1 102 x → Within (2 ^ 18) 102 w →
        Within 1 121 (x + Scalar.half w) := fun hx hw =>
      (hx.add (hw.half (by decide)) (by decide)).mono (by decide)
    have hrx : ∀ r, ratio? (target settings).width extent.width = some r → Within 1 118 r :=
      fun _ => within_ratio? (hroom hsettings.width) hextent.width.isNumber
    have hry : ∀ r, ratio? (target settings).height extent.height = some r → Within 1 118 r :=
      fun _ => within_ratio? (hroom hsettings.height) hextent.height.isNumber
    have hboth : ∀ r, lesserRatio? (ratio? (target settings).width extent.width)
        (ratio? (target settings).height extent.height) = some r → Within 1 118 r :=
      fun _ => within_lesserRatio? hrx hry
    intro x hx
    obtain ⟨y, hy, rfl⟩ := List.mem_map.1 hx
    constructor
    · refine within_fitted (hgoal (hroom hsettings.width)) (hflat y hy).x
        (hsource hextent.x hextent.width) (within_usableRatio ?_)
      split
      · exact hboth
      · exact hrx
    · refine within_fitted (hgoal (hroom hsettings.height)) (hflat y hy).y
        (hsource hextent.y hextent.height) (within_usableRatio ?_)
      split
      · exact hboth
      · exact hry

end Layout

end Patchbay
