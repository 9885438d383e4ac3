import Mathlib.Tactic.Linarith
import Mathlib.Tactic.Ring
import Patchbay.Geometry.Box
import Patchbay.Proofs.Exact

/-!
# Boxes

Two boxes meet if they have a point in common. A box that is neither wider nor higher than another
one that it meets has a corner in it (`exists_corner`), since along each axis the longer of two
stretches holds an end of the shorter one. The union of two boxes covers both of them, and so does
the union of many (`covers_foldl_union`).
-/

namespace Patchbay

namespace Box

variable {α : Type} [ExactScalar α] {a b c : Box α} {p q : Point α}

/-! ## Points in a box -/

/-- The corners of a box, clockwise from the top left. -/
def corners (b : Box α) : List (Point α) :=
  [⟨b.x, b.y⟩, ⟨b.right, b.y⟩, ⟨b.right, b.bottom⟩, ⟨b.x, b.bottom⟩]

theorem contains_of_mem_corners (hw : 0 ≤ b.width) (hh : 0 ≤ b.height) (h : p ∈ b.corners) :
    b.Contains p := by
  have hright : b.x ≤ b.right := le_add_of_nonneg_right hw
  have hbottom : b.y ≤ b.bottom := le_add_of_nonneg_right hh
  simp only [corners, List.mem_cons, List.not_mem_nil, or_false] at h
  obtain rfl | rfl | rfl | rfl := h
  · exact ⟨⟨le_rfl, hright⟩, ⟨le_rfl, hbottom⟩⟩
  · exact ⟨⟨hright, le_rfl⟩, ⟨le_rfl, hbottom⟩⟩
  · exact ⟨⟨hright, le_rfl⟩, ⟨hbottom, le_rfl⟩⟩
  · exact ⟨⟨le_rfl, hright⟩, ⟨hbottom, le_rfl⟩⟩

theorem between_middle {lo hi s t : α} (hs : Scalar.Between lo hi s) (ht : Scalar.Between lo hi t) :
    Scalar.Between lo hi (s * (1 - Scalar.half 1) + t * Scalar.half 1) := by
  obtain ⟨hs, hs'⟩ := hs
  obtain ⟨ht, ht'⟩ := ht
  rw [Scalar.half_eq]
  constructor <;> linarith

/-- A box holds the middle between two of its points. -/
theorem Contains.middle (hp : b.Contains p) (hq : b.Contains q) :
    b.Contains (p.lerp q (Scalar.half 1)) :=
  ⟨between_middle hp.1 hq.1, between_middle hp.2 hq.2⟩

/-! ## Boxes that meet -/

def Meets (a b : Box α) : Prop := ∃ p, a.Contains p ∧ b.Contains p

theorem Meets.symm (h : a.Meets b) : b.Meets a := by
  obtain ⟨p, ha, hb⟩ := h
  exact ⟨p, hb, ha⟩

/-- Of two stretches with a common point, the longer one holds an end of the shorter one. -/
theorem between_start_or_end {x w y v t : α} (hle : v ≤ w) (h : Scalar.Between x (x + w) t)
    (h' : Scalar.Between y (y + v) t) :
    Scalar.Between x (x + w) y ∨ Scalar.Between x (x + w) (y + v) := by
  obtain ⟨hx, hx'⟩ := h
  obtain ⟨hy, hy'⟩ := h'
  rcases le_or_gt x y with hstart | hstart
  · exact .inl ⟨hstart, hy.trans hx'⟩
  · refine .inr ⟨hx.trans hy', ?_⟩
    linarith

/-- A box that meets another one and is neither wider nor higher has a corner in it. -/
theorem exists_corner (hw : b.width ≤ a.width) (hh : b.height ≤ a.height) (h : a.Meets b) :
    ∃ p ∈ b.corners, a.Contains p := by
  obtain ⟨t, ⟨hax, hay⟩, ⟨hbx, hby⟩⟩ := h
  rcases between_start_or_end hw hax hbx with hx | hx <;>
    rcases between_start_or_end hh hay hby with hy | hy
  · exact ⟨⟨b.x, b.y⟩, by simp [corners], hx, hy⟩
  · exact ⟨⟨b.x, b.bottom⟩, by simp [corners], hx, hy⟩
  · exact ⟨⟨b.right, b.y⟩, by simp [corners], hx, hy⟩
  · exact ⟨⟨b.right, b.bottom⟩, by simp [corners], hx, hy⟩

/-! ## Boxes that cover others -/

/-- The box `a` reaches at least as far as `b` on all four sides. -/
structure Covers (a b : Box α) : Prop where
  left : a.x ≤ b.x
  right : b.right ≤ a.right
  top : a.y ≤ b.y
  bottom : b.bottom ≤ a.bottom

theorem Covers.refl (a : Box α) : a.Covers a := ⟨le_rfl, le_rfl, le_rfl, le_rfl⟩

theorem Covers.trans (h : a.Covers b) (h' : b.Covers c) : a.Covers c :=
  ⟨h.left.trans h'.left, h'.right.trans h.right, h.top.trans h'.top, h'.bottom.trans h.bottom⟩

theorem right_union (a b : Box α) : (a.union b).right = max a.right b.right := by
  rw [← Scalar.greater_eq_max]
  exact add_sub_cancel _ _

theorem bottom_union (a b : Box α) : (a.union b).bottom = max a.bottom b.bottom := by
  rw [← Scalar.greater_eq_max]
  exact add_sub_cancel _ _

theorem x_union (a b : Box α) : (a.union b).x = min a.x b.x := Scalar.lesser_eq_min _ _

theorem y_union (a b : Box α) : (a.union b).y = min a.y b.y := Scalar.lesser_eq_min _ _

theorem covers_union_left (a b : Box α) : (a.union b).Covers a :=
  ⟨x_union a b ▸ min_le_left _ _, right_union a b ▸ le_max_left _ _,
    y_union a b ▸ min_le_left _ _, bottom_union a b ▸ le_max_left _ _⟩

theorem covers_union_right (a b : Box α) : (a.union b).Covers b :=
  ⟨x_union a b ▸ min_le_right _ _, right_union a b ▸ le_max_right _ _,
    y_union a b ▸ min_le_right _ _, bottom_union a b ▸ le_max_right _ _⟩

/-- The union of many boxes covers each of them. -/
theorem covers_foldl_union (boxes : List (Box α)) (b : Box α) :
    ∀ a ∈ b :: boxes, (boxes.foldl union b).Covers a := by
  induction boxes generalizing b with
  | nil =>
    intro a ha
    rw [List.mem_singleton.1 ha]
    exact .refl b
  | cons c boxes ih =>
    intro a ha
    have hfirst := ih (b.union c) _ List.mem_cons_self
    rcases List.mem_cons.1 ha with rfl | ha
    · exact hfirst.trans (covers_union_left a c)
    · rcases List.mem_cons.1 ha with rfl | ha
      · exact hfirst.trans (covers_union_right b a)
      · exact ih (b.union c) a (List.mem_cons_of_mem _ ha)

end Box

end Patchbay
