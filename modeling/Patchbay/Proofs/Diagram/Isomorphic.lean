import Patchbay.Proofs.Diagram.Copies
import Patchbay.Proofs.Diagram.Submittable

/-!
# What isomorphic diagrams share

An isomorphism carries over whatever asks for shapes, magnets and cables but not for their names:
what feeds what (`Isomorphism.feeds` and, the other way, `Isomorphism.exists_feeds`), and that a
diagram without loose cables is complete (`Isomorphism.complete`).
-/

namespace Patchbay

namespace Diagram

namespace Isomorphism

variable {α : Type} {d e : Diagram α} {f : ShapeId → ShapeId} {g : CableId → CableId}
  {i j id : ShapeId} {t : Terminal} {c : CableId}

/-! ## Shapes -/

theorem exists_live (h : Isomorphism d e f g) (hj : (e.body? j).isSome) :
    ∃ i, (d.body? i).isSome ∧ f i = j :=
  h.shapes.surjOn hj

theorem inj (h : Isomorphism d e f g) (hi : (d.body? i).isSome) (hj : (d.body? j).isSome)
    (hij : f i = f j) : i = j :=
  h.shapes.injOn hi hj hij

theorem has_eq (h : Isomorphism d e f g) {p : Shape α → Bool} (hp : Bodily p)
    (hid : (d.body? id).isSome) : e.has p (f id) = d.has p id :=
  has_congr hp (h.body id hid)

theorem exists_shape (h : Isomorphism d e f g) {s : Shape α} (hs : d.shape? id = some s) :
    ∃ s', e.shape? (f id) = some s' ∧ s'.body = s.body := by
  have hbody := h.body id (Option.isSome_of_eq_some (body?_eq_some hs))
  rw [body?_eq_some hs] at hbody
  exact Option.map_eq_some_iff.1 hbody

theorem exists_magnet (h : Isomorphism d e f g) {m : Magnet α} (hm : d.magnet? t = some m) :
    ∃ m', e.magnet? (t.rename f) = some m' ∧ m'.clear = m.clear :=
  exists_magnet_congr (h.body _ (isSome_body?_of_magnet? hm)) hm

/-- Every magnet is at the place of a magnet. -/
theorem exists_place (h : Isomorphism d e f g) {m : Magnet α} (hm : e.magnet? t = some m) :
    ∃ u n, d.magnet? u = some n ∧ u.rename f = t := by
  obtain ⟨i, side, k⟩ := t
  obtain ⟨j, hj, rfl⟩ := h.exists_live (isSome_body?_of_magnet? hm)
  obtain ⟨n, hn, -⟩ := exists_magnet_congr (h.body j hj).symm hm
  exact ⟨⟨j, side, k⟩, n, hn, rfl⟩

/-! ## Cables -/

theorem joins (h : Isomorphism d e f g) (hc : d.Joins c t) : e.Joins (g c) (t.rename f) := by
  obtain ⟨s, u, hends, ht⟩ := hc
  exact ⟨_, _, h.ends c s u hends, ht.imp (congrArg _) (congrArg _)⟩

theorem feeds (h : Isomorphism d e f g) (hij : d.Feeds i j) : e.Feeds (f i) (f j) := by
  obtain ⟨c, s, t, hc, rfl, rfl⟩ := hij
  exact ⟨g c, _, _, h.ends c s t hc, rfl, rfl⟩

/-- What feeds a shape is what feeds it in the other diagram. -/
theorem exists_feeds (h : Isomorphism d e f g) (hd : d.Linked) (hid : (d.body? id).isSome)
    (hfeeds : e.Feeds j (f id)) : ∃ i, d.Feeds i id ∧ f i = j := by
  obtain ⟨k, s', t', hk, rfl, ht'⟩ := hfeeds
  obtain ⟨c, ⟨s, t, hc⟩, rfl⟩ := h.cables.surjOn ⟨s', t', hk⟩
  obtain ⟨hs, ht⟩ := Prod.mk.inj (Option.some.inj ((h.ends c s t hc).symm.trans hk))
  cases hs
  cases ht
  exact ⟨s.shape, ⟨c, s, t, hc, rfl, h.inj (hd.live (touches_dest hc)) hid ht'⟩, rfl⟩

/-! ## Complete diagrams -/

variable [Scalar α]

/-- A complete diagram without loose cables is isomorphic to complete ones only. -/
theorem complete (h : Isomorphism d e f g) (hd : d.Sound []) (he : e.Sound [])
    (hloose : ∀ c s, d.ends? c ≠ some (s, none)) (hc : d.Complete) : e.Complete := by
  obtain ⟨⟨i, a, ha, hin⟩, ⟨j, b, hb, hstep⟩, ⟨k, o, ho, hout⟩, hzone, hconnected⟩ :=
    hd.complete_iff_submittable.1 hc
  obtain ⟨a', ha', habody⟩ := h.exists_shape ha
  obtain ⟨b', hb', hbbody⟩ := h.exists_shape hb
  obtain ⟨o', ho', hobody⟩ := h.exists_shape ho
  refine he.complete_iff_submittable.2 ⟨⟨f i, a', ha', ?_⟩, ⟨f j, b', hb', ?_⟩, ⟨f k, o', ho', ?_⟩,
    fun l s' hs' => ?_, fun t' m' hm' => ?_⟩
  · rw [bodily_isInput a' a habody, hin]
  · rw [bodily_isStep b' b hbbody, hstep]
  · rw [bodily_isOutput o' o hobody, hout]
  · obtain ⟨i, hi, rfl⟩ := h.exists_live (Option.isSome_of_eq_some (body?_eq_some hs'))
    obtain ⟨s, hs⟩ := Option.isSome_iff_exists.1 (isSome_body? d i ▸ hi)
    obtain ⟨x, hx, hbody⟩ := h.exists_shape hs
    cases hs'.symm.trans hx
    rw [Shape.isFixed, Shape.kind_eq_of_body_eq hbody]
    exact hzone i s hs
  · obtain ⟨t, m, hm, rfl⟩ := h.exists_place hm'
    obtain ⟨c, htouch⟩ := hconnected t m hm
    exact ⟨g c, (h.joins (htouch.joins hloose)).touches⟩

end Isomorphism

end Diagram

end Patchbay
