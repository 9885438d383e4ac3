import Patchbay.Proofs.Geometry.Boxes
import Patchbay.Shape.Outline

/-!
# Overlapping steps

Whether two shapes overlap is decided by a few points on their outlines, which may miss that the
outlines cross. For two steps it does not: all steps have the same width, and so the lower one of
two steps with a common point has a corner in the other one (`overlaps_iff_meets`).
-/

namespace Patchbay

namespace Shape

variable {α : Type} [ExactScalar α] {s t : Shape α} {p : Point α}

/-! ## Steps as rectangles -/

theorem contains_iff_of_step (hs : s.kind = .step) : s.Contains p ↔ s.bounds.Contains p := by
  unfold Contains
  rw [hs]

theorem probes_of_step (hs : s.kind = .step) :
    s.probes = cornersAndMiddles s.bounds.corners := by
  have hpolygon : s.polygon? = some s.bounds.corners := by
    unfold polygon?
    rw [hs]
    rfl
  rw [probes, hpolygon]

theorem size_of_step (hs : s.kind = .step) :
    s.bounds.width = stepWidth ∧
      s.bounds.height = (max (max s.inputs.length s.outputs.length) 1 : Nat) * magnetSpacing +
        (2 : Nat) * stepPadding := by
  unfold bounds size
  rw [hs]
  exact ⟨rfl, rfl⟩

theorem nonneg_of_step (hs : s.kind = .step) : 0 ≤ s.bounds.width ∧ 0 ≤ s.bounds.height := by
  obtain ⟨hwidth, hheight⟩ := size_of_step hs
  rw [hwidth, hheight]
  exact ⟨Nat.cast_nonneg _, by unfold magnetSpacing stepPadding; positivity⟩

/-- The probes of a step lie in its box. -/
theorem contains_of_mem_probes (hs : s.kind = .step) (hp : p ∈ s.probes) :
    s.bounds.Contains p := by
  obtain ⟨hw, hh⟩ := nonneg_of_step hs
  rw [probes_of_step hs] at hp
  obtain ⟨⟨a, b⟩, hedge, hp⟩ := List.mem_flatMap.1 hp
  obtain ⟨ha, hb⟩ := List.of_mem_zip hedge
  have hcorner : b ∈ s.bounds.corners := by
    rcases List.mem_append.1 hb with hb | hb
    · exact List.mem_of_mem_tail hb
    · exact List.mem_of_mem_head? (Option.mem_toList.1 hb)
  have ha' := Box.contains_of_mem_corners hw hh ha
  have hb' := Box.contains_of_mem_corners hw hh hcorner
  rcases List.mem_cons.1 hp with rfl | hp
  · exact ha'
  · rw [List.mem_singleton.1 hp]
    exact ha'.middle hb'

/-- The corners of a step are among its probes. -/
theorem mem_probes_of_mem_corners (hs : s.kind = .step) (hp : p ∈ s.bounds.corners) :
    p ∈ s.probes := by
  rw [probes_of_step hs]
  simp only [Box.corners, List.mem_cons, List.not_mem_nil, or_false] at hp
  obtain rfl | rfl | rfl | rfl := hp <;> simp [cornersAndMiddles, Box.corners]

/-! ## Two steps -/

/-- A step that is no higher than another one that it meets has a probe in it. -/
theorem exists_probe (hs : s.kind = .step) (ht : t.kind = .step)
    (hle : t.bounds.height ≤ s.bounds.height) (h : s.bounds.Meets t.bounds) :
    ∃ p ∈ t.probes, s.Contains p := by
  have hwidth : t.bounds.width ≤ s.bounds.width := by
    rw [(size_of_step hs).1, (size_of_step ht).1]
  obtain ⟨p, hp, hcontains⟩ := Box.exists_corner hwidth hle h
  exact ⟨p, mem_probes_of_mem_corners ht hp, (contains_iff_of_step hs).2 hcontains⟩

/-- Two steps overlap just when their boxes, edges included, have a point in common. -/
theorem overlaps_iff_meets (hs : s.kind = .step) (ht : t.kind = .step) :
    s.Overlaps t ↔ s.bounds.Meets t.bounds := by
  constructor
  · rintro (⟨p, hp, hcontains⟩ | ⟨p, hp, hcontains⟩)
    · exact ⟨p, contains_of_mem_probes hs hp, (contains_iff_of_step ht).1 hcontains⟩
    · exact ⟨p, (contains_iff_of_step hs).1 hcontains, contains_of_mem_probes ht hp⟩
  · intro hmeets
    rcases le_total t.bounds.height s.bounds.height with hle | hle
    · exact .inr (exists_probe hs ht hle hmeets)
    · exact .inl (exists_probe ht hs hle hmeets.symm)

/-- A step and a higher one that touches it at a corner. -/
theorem overlaps_touching :
    ((step "f" [⟨"x", none⟩] [⟨"y", none⟩] (⟨40, 19⟩ : Point ℚ)).kind = .step ∧
      (step "g" [⟨"x", none⟩, ⟨"y", none⟩] [] (⟨120, 66⟩ : Point ℚ)).kind = .step) ∧
    (step "f" [⟨"x", none⟩] [⟨"y", none⟩] (⟨40, 19⟩ : Point ℚ)).Overlaps
      (step "g" [⟨"x", none⟩, ⟨"y", none⟩] [] ⟨120, 66⟩) :=
  ⟨⟨rfl, rfl⟩, (overlaps_iff_meets rfl rfl).2 ⟨⟨80, 38⟩, by decide +kernel⟩⟩

end Shape

end Patchbay
