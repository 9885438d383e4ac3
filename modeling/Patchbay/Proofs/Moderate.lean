import Patchbay.Proofs.Diagram.Histories
import Patchbay.Proofs.Magnitudes
import Patchbay.Settings

/-!
# Moderate settings and diagrams

Layouts and collisions overflow when the numbers that they start from are near the greatest double.
Moderate settings are far from that: none of the numbers used is greater than the 64th power of two.
A diagram is moderate if it has no more than 65536 shapes, and these no more magnets than that on a
side. Then no shape is large, and no magnet is far from the centre of its shape.
-/

namespace Patchbay

open Double

/-- The numbers that layouts and collisions use are not too great. -/
structure Settings.Moderate (s : Settings Double) : Prop where
  width : Within 1 64 s.width
  height : Within 1 64 s.height
  zoneFraction : Within 1 64 s.zoneFraction
  zoneAspect : Within 1 64 s.zoneAspect
  pushStep : Within 1 64 s.pushStep
  relayoutBias : Within 1 64 s.relayoutBias
  nodeSpacing : Within 1 64 s.nodeSpacing
  layerSpacing : Within 1 64 s.layerSpacing
  margin : Within 1 64 s.margin

theorem Settings.moderate_standard : (Settings.standard : Settings Double).Moderate := by
  have hnat : ∀ {i : ℕ}, i ≤ 1000 → Within 1 64 (i : Double) := fun hi =>
    (within_natCast hi (by decide)).mono (by decide)
  have hshare : ∀ {a : Double}, a.IsNumber → -1 ≤ a → a ≤ 1 → Within 1 64 a := fun ha hlow hhigh =>
    (within_of_le ha within_one hlow hhigh).mono (by decide)
  exact {
    width := hnat (by decide)
    height := hnat (by decide)
    zoneFraction := hshare (by decide +kernel) (by decide +kernel) (by decide +kernel)
    zoneAspect := hshare (by decide +kernel) (by decide +kernel) (by decide +kernel)
    pushStep := hnat (by decide)
    relayoutBias := hshare (by decide +kernel) (by decide +kernel) (by decide +kernel)
    nodeSpacing := hnat (by decide)
    layerSpacing := hnat (by decide)
    margin := hnat (by decide) }

namespace Shape

/-- The shape has not too many magnets, and if it is a zone, it is not too large. -/
structure Moderate (s : Shape Double) : Prop where
  magnets : ∀ side, (s.magnets side).length ≤ 2 ^ 16
  zone : ∀ width height, s.kind = .zone width height → Within 1 64 width ∧ Within 1 64 height

/-! ## Sizes -/

/-- The sizes of shapes that are no zones are small. -/
theorem within_sizeFor (kind : Kind Double) {inputs outputs : ℕ} (hin : inputs ≤ 2 ^ 16)
    (hout : outputs ≤ 2 ^ 16) (hkind : ∀ width height, kind ≠ .zone width height) :
    Within 1 7 (sizeFor kind inputs outputs).1 ∧ Within 1 24 (sizeFor kind inputs outputs).2 := by
  have hcylinder : Within 1 7 (((2 : ℕ) : Double) * cylinderRadius) ∧
      Within 1 24 (cylinderBody + ((2 : ℕ) : Double) * cylinderCap) := by
    have hwidth := (within_numeral 2 (by decide)).mul (within_numeral 20 (by decide)) (by decide)
    have hcap := (within_numeral 20 (by decide)).half (by decide)
    have hcaps := (within_numeral 2 (by decide)).mul hcap (by decide)
    have hheight := (within_numeral 25 (by decide)).add hcaps (by decide)
    exact ⟨hwidth.mono (by decide), hheight.mono (by decide)⟩
  match kind with
  | .rawInput | .output _ => exact hcylinder
  | .typedInput _ =>
    exact ⟨(within_numeral 45 (by decide)).mono (by decide),
      (within_numeral 40 (by decide)).mono (by decide)⟩
  | .step =>
    have hmost : max (max inputs outputs) 1 ≤ 2 ^ 16 := by omega
    have hmagnets := (within_natCast hmost (by decide)).mul (within_numeral 18 (by decide))
      (by decide)
    have hborder := (within_numeral 2 (by decide)).mul (within_numeral 10 (by decide)) (by decide)
    have hheight := hmagnets.add hborder (by decide)
    exact ⟨(within_numeral 80 (by decide)).mono (by decide), hheight.mono (by decide)⟩
  | .zone width height => exact absurd rfl (hkind width height)

theorem Moderate.within_size {s : Shape Double} (h : s.Moderate) :
    Within 1 64 s.size.1 ∧ Within 1 64 s.size.2 := by
  by_cases hkind : ∃ width height, s.kind = .zone width height
  · obtain ⟨width, height, hkind⟩ := hkind
    rw [size, hkind]
    exact h.zone width height hkind
  · obtain ⟨hwidth, hheight⟩ := within_sizeFor s.kind (h.magnets .input) (h.magnets .output)
      fun width height hzone => hkind ⟨width, height, hzone⟩
    exact ⟨hwidth.mono (by decide), hheight.mono (by decide)⟩

/-! ## Magnets -/

theorem length_mount (sockets : List Socket) (side : Side) (width height : Double) :
    (mount sockets side width height).length = sockets.length := by
  unfold mount
  rw [List.length_map, List.length_zipIdx]

theorem nearby_mount {sockets : List Socket} {side : Side} {width height : Double}
    {m : Magnet Double} (hlength : sockets.length ≤ 2 ^ 16) (hwidth : Within 1 7 width)
    (hheight : Within 1 24 height) (hm : m ∈ mount sockets side width height) :
    m.offset.Nearby 1 26 := by
  obtain ⟨⟨socket, i⟩, hi, rfl⟩ := List.mem_map.1 hm
  have hi : i ≤ 2 ^ 16 := by
    have := List.snd_lt_of_mem_zipIdx hi
    omega
  constructor
  · cases side with
    | input => exact (hwidth.neg.half (by decide)).mono (m := 26) (by decide)
    | output => exact (hwidth.half (by decide)).mono (m := 26) (by decide)
  · dsimp only
    split
    · exact within_zero 1 26
    · have htop := (hheight.neg.half (by decide)).add
        ((within_numeral 10 (by decide)).mono (m := 24) (l := 1) (by decide)) (by decide)
      have hslot := (within_natCast hi (by decide)).add (within_one.half (by decide)) (by decide)
      have hdown := (within_numeral 18 (by decide)).mul hslot (by decide)
      exact (htop.add (hdown.mono (m := 24) (l := 1) (by decide)) (by decide)).mono (by decide)

theorem Built.exists_make {s : Shape Double} (h : s.Built) :
    ∃ kind label centre inputs outputs, s = make kind label centre inputs outputs ∧
      ((∀ width height, kind ≠ .zone width height) ∨ inputs = [] ∧ outputs = []) := by
  cases h with
  | zone bounds => exact ⟨_, _, _, [], [], rfl, .inr ⟨rfl, rfl⟩⟩
  | _ => exact ⟨_, _, _, _, _, rfl, .inl (by simp)⟩

/-- Magnets are not far from the centre of their shape. -/
theorem Moderate.nearby_offset {s : Shape Double} (h : s.Moderate) (hs : s.body.Conforms)
    {side : Side} {m : Magnet Double} (hm : m ∈ s.magnets side) : m.offset.Nearby 1 26 := by
  obtain ⟨t, ht, hbody⟩ := hs
  have hmagnets : ∀ side,
      (t.magnets side).map Magnet.clear = (s.magnets side).map Magnet.clear := by
    intro side
    cases side with
    | input => exact congrArg Body.inputs hbody
    | output => exact congrArg Body.outputs hbody
  have hlength : ∀ side, (t.magnets side).length ≤ 2 ^ 16 := by
    intro side
    have := congrArg List.length (hmagnets side)
    rw [List.length_map, List.length_map] at this
    exact this.trans_le (h.magnets side)
  obtain ⟨n, hn, hclear⟩ := List.mem_map.1
    ((hmagnets side).symm ▸ List.mem_map_of_mem (f := Magnet.clear) hm)
  have hoffset : n.clear.offset = m.clear.offset := congrArg Magnet.offset hclear
  change n.offset = m.offset at hoffset
  rw [← hoffset]
  obtain ⟨kind, label, centre, inputs, outputs, rfl, hkind⟩ := ht.exists_make
  have hin : inputs.length ≤ 2 ^ 16 := (length_mount inputs _ _ _).symm.trans_le (hlength .input)
  have hout : outputs.length ≤ 2 ^ 16 :=
    (length_mount outputs _ _ _).symm.trans_le (hlength .output)
  rcases hkind with hkind | ⟨rfl, rfl⟩
  · obtain ⟨hwidth, hheight⟩ := within_sizeFor kind hin hout hkind
    cases side with
    | input => exact nearby_mount hin hwidth hheight hn
    | output => exact nearby_mount hout hwidth hheight hn
  · cases side <;> cases hn

end Shape

/-- There are not too many shapes, and they have not too many magnets. -/
structure Diagram.Moderate (d : Diagram Double) : Prop where
  size : d.size ≤ 2 ^ 16
  shapes : ∀ id s, d.shape? id = some s → s.Moderate

/-- It is enough to look into all slots, if none holds a zone. -/
theorem Diagram.moderate_of_slots {d : Diagram Double} (hsize : d.size ≤ 2 ^ 16)
    (h : d.shapeSlots.slots.all (·.all fun s =>
      !s.isFixed && s.inputs.length ≤ 2 ^ 16 && s.outputs.length ≤ 2 ^ 16) = true) :
    d.Moderate := by
  refine ⟨hsize, fun id s hs => ?_⟩
  have hslot := List.all_eq_true.1 h _ (List.mem_of_getElem? (Option.join_eq_some_iff.1 hs))
  simp only [Option.all_some, Bool.and_eq_true, Bool.not_eq_true', decide_eq_true_eq] at hslot
  obtain ⟨⟨hkind, hin⟩, hout⟩ := hslot
  constructor
  · intro side
    cases side with
    | input => exact hin
    | output => exact hout
  · intro width height hzone
    rw [Shape.isFixed, hzone] at hkind
    cases hkind

end Patchbay
