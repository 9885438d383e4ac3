import Mathlib.Data.Set.Function
import Patchbay.Proofs.Diagram.Consists

/-!
# Copies of a diagram

Two diagrams are isomorphic if shapes and cables can be renamed so that the one becomes the other
(`Isomorphism`). A copy is made by adding the shapes of a diagram in some order and then its cables,
each shape being renamed to its place in the order. What has been copied so far (`Copied`) never
stands in the way of the next cable, since no cable of the diagram does (`Copied.connect`), and when
all has been copied there is an isomorphism (`Copied.isomorphism`).
-/

namespace Patchbay

/-- The magnet at the same place of another shape. -/
def Terminal.rename (f : ShapeId → ShapeId) (t : Terminal) : Terminal := { t with shape := f t.shape }

namespace Diagram

open Relation
open List (Forall₂)

/-! ## Isomorphisms -/

section

variable {α : Type}

def attached (d : Diagram α) : Set CableId := {c | ∃ s t, d.ends? c = some (s, some t)}

/-- Renamings of the shapes and of the attached cables that carry a diagram over to another: shapes
keep their kind, label and magnets, and cables run from and to the same magnets. -/
structure Isomorphism (d d' : Diagram α) (f : ShapeId → ShapeId) (g : CableId → CableId) :
    Prop where
  shapes : Set.BijOn f {i | (d.body? i).isSome} {i | (d'.body? i).isSome}
  body : ∀ i, (d.body? i).isSome → d'.body? (f i) = d.body? i
  cables : Set.BijOn g d.attached d'.attached
  ends : ∀ c s t, d.ends? c = some (s, some t) →
    d'.ends? (g c) = some (s.rename f, some (t.rename f))

/-- The diagrams differ in the names of shapes and cables only. -/
def Isomorphic (d d' : Diagram α) : Prop := ∃ f g, Isomorphism d d' f g

end

/-! ## Copies -/

variable {α : Type} {d e : Diagram α} {all ids : List ShapeId} {id : ShapeId}
  {done : List Terminal} {c : CableId} {s t : Terminal}

/-- The name of a shape in a copy: its place in the list. -/
def placeIn (all : List ShapeId) (id : ShapeId) : ShapeId := ⟨all.idxOf id⟩

theorem placeIn_of_getElem? (h : all.Nodup) {n : Nat} (hn : all[n]? = some id) :
    placeIn all id = ⟨n⟩ := by
  obtain ⟨hlt, rfl⟩ := List.getElem?_eq_some_iff.1 hn
  rw [placeIn, h.idxOf_getElem n hlt]

theorem map_placeIn (h : all.Nodup) :
    all.map (placeIn all) = (List.range all.length).map ShapeId.mk := by
  refine List.ext_getElem (by simp) fun n hn _ => ?_
  rw [List.getElem_map, List.getElem_map, List.getElem_range]
  exact placeIn_of_getElem? h (List.getElem?_eq_getElem (by simpa using hn))

theorem placeIn_inj {i j : ShapeId} (hi : i ∈ all) (h : placeIn all i = placeIn all j) : i = j :=
  (List.idxOf_inj hi).1 (ShapeId.slot_inj.2 h)

theorem rename_placeIn_inj {u v : Terminal} (hu : u.shape ∈ all)
    (h : u.rename (placeIn all) = v.rename (placeIn all)) : u = v := by
  obtain ⟨i, side, index⟩ := u
  obtain ⟨j, side', index'⟩ := v
  obtain ⟨hplace, rfl, rfl⟩ := Terminal.mk.inj h
  rw [show i = j from placeIn_inj hu hplace]

/-- The copy of the cable into a magnet. -/
def WireOf (d : Diagram α) (all : List ShapeId) (t : Terminal) (w : Terminal × Terminal) : Prop :=
  ∃ c s, d.ends? c = some (s, some t) ∧ w = (s.rename (placeIn all), t.rename (placeIn all))

/-- The name of a cable in a copy: the place in the list of the magnet where it has landed. -/
def cableIn (d : Diagram α) (done : List Terminal) (c : CableId) : CableId :=
  match d.ends? c with
  | some (_, some t) => ⟨done.idxOf t⟩
  | _ => c

theorem cableIn_of_ends? (hc : d.ends? c = some (s, some t)) :
    cableIn d done c = ⟨done.idxOf t⟩ := by
  rw [cableIn, hc]

variable [Scalar α]

/-- The shapes in the list and the cables that lead to the magnets in the other list have been
copied. -/
structure Copied (d e : Diagram α) (all ids : List ShapeId) (done : List Terminal) : Prop where
  mem_all : ∀ id, id ∈ all ↔ (d.body? id).isSome
  nodup : all.Nodup
  isPrefix : ids <+: all
  consists : ∃ bodies wires, e.Consists bodies wires ∧
    Forall₂ (fun id b => d.body? id = some b) ids bodies ∧ Forall₂ (WireOf d all) done wires

theorem Copied.placeIn_of_getElem? (h : Copied d e all ids done) {n : Nat}
    (hn : ids[n]? = some id) : placeIn all id = ⟨n⟩ := by
  obtain ⟨rest, hall⟩ := h.isPrefix
  refine Diagram.placeIn_of_getElem? h.nodup ?_
  rw [← hall, List.getElem?_append_left (List.getElem?_eq_some_iff.1 hn).1, hn]

theorem Copied.body? (h : Copied d e all ids done) (hid : id ∈ ids) :
    e.body? (placeIn all id) = d.body? id := by
  obtain ⟨bodies, wires, hc, hbodies, -⟩ := h.consists
  obtain ⟨n, hn⟩ := List.mem_iff_getElem?.1 hid
  obtain ⟨b, hb, hbody⟩ := getElem?_of_forall₂ hbodies hn
  rw [h.placeIn_of_getElem? hn, hc.body, hb, hbody]

/-- Every shape of the copy is the copy of a shape. -/
theorem Copied.exists_of_isSome (h : Copied d e all ids done) {i : ShapeId}
    (hi : (e.body? i).isSome) : ∃ id ∈ ids, placeIn all id = i := by
  obtain ⟨bodies, wires, hc, hbodies, -⟩ := h.consists
  obtain ⟨b, hb⟩ := Option.isSome_iff_exists.1 hi
  rw [hc.body] at hb
  obtain ⟨id, hid, -⟩ := getElem?_of_forall₂ hbodies.flip hb
  exact ⟨id, List.mem_of_getElem? hid, h.placeIn_of_getElem? hid⟩

theorem Copied.magnet? (h : Copied d e all ids done) (hid : t.shape ∈ ids) {m : Magnet α}
    (hm : d.magnet? t = some m) :
    ∃ m', e.magnet? (t.rename (placeIn all)) = some m' ∧ m'.clear = m.clear :=
  exists_magnet_congr (h.body? hid) hm

/-! ## Cables of the copy -/

/-- A cable of the copy is the copy of a cable. -/
theorem Copied.feeds (h : Copied d e all ids done) {a b : ShapeId} (hab : e.Feeds a b) :
    ∃ i j, d.Feeds i j ∧ placeIn all i = a ∧ placeIn all j = b := by
  obtain ⟨bodies, wires, hc, -, hwires⟩ := h.consists
  obtain ⟨w, hw, rfl, rfl⟩ := hc.feeds_iff.1 hab
  obtain ⟨-, t, -, -, c, s, hends, rfl⟩ := exists_of_mem_right hwires hw
  exact ⟨s.shape, t.shape, ⟨c, s, t, hends, rfl, rfl⟩, rfl, rfl⟩

/-- A path in the copy is the copy of a path. -/
theorem Copied.path (h : Copied d e all ids done) (hl : d.Linked) (hid : id ∈ all) {b : ShapeId}
    (hpath : ReflTransGen e.Feeds (placeIn all id) b) :
    ∃ j ∈ all, placeIn all j = b ∧ ReflTransGen d.Feeds id j := by
  induction hpath with
  | refl => exact ⟨id, hid, rfl, .refl⟩
  | tail _ hbc ih =>
    obtain ⟨j, hj, hjb, hto⟩ := ih
    obtain ⟨x, y, hxy, hxb, hyc⟩ := h.feeds hbc
    have hjx : j = x := placeIn_inj hj (hjb.trans hxb.symm)
    exact ⟨y, (h.mem_all y).2 (hl.feeds_live_right hxy), hyc, hto.tail (hjx ▸ hxy)⟩

theorem Copied.joinFault?_eq_none (h : Copied d e all ids done) (hs : d.Sound [])
    (hc : d.ends? c = some (s, some t)) (hsource : s.shape ∈ ids) (hdest : t.shape ∈ ids)
    (hnew : t ∉ done) :
    Edit.joinFault? e (s.rename (placeIn all)) (t.rename (placeIn all)) = none := by
  obtain ⟨m, hm, -⟩ := hs.source hc
  obtain ⟨n, hn, -⟩ := hs.dest hc
  obtain ⟨m', hm', hmc⟩ := h.magnet? hsource hm
  obtain ⟨n', hn', hnc⟩ := h.magnet? hdest hn
  obtain ⟨bodies, wires, hcons, -, hwires⟩ := h.consists
  have hm_datatype := congrArg Magnet.datatype hmc
  have hn_datatype := congrArg Magnet.datatype hnc
  have hfits : m.accepts n := hs.accepts hc hm hn
  have haccepts : m'.accepts n' := (Magnet.accepts_congr hm_datatype hn_datatype).trans hfits
  have hfree : ∀ w ∈ wires, w.2 ≠ t.rename (placeIn all) := by
    rintro w hw heq
    obtain ⟨i, u, hu, -, c', s', hends, rfl⟩ := exists_of_mem_right hwires hw
    have hlive := (h.mem_all u.shape).2 (hs.live (touches_dest hends))
    exact hnew (rename_placeIn_inj hlive heq ▸ List.mem_of_getElem? hu)
  have hsides : s.side = .output ∧ t.side = .input := ⟨hs.source_side hc, hs.dest_side hc⟩
  refine hcons.joinFault?_eq_none hsides.1 hsides.2 hm' hn' haccepts hfree ?_
  -- a way back would be the copy of a way back
  intro hback
  have hmem : ∀ {u}, d.Touches c u → u.shape ∈ all := fun hu => (h.mem_all _).2 (hs.live hu)
  obtain ⟨j, hj, hplace, hpath⟩ := h.path hs.toLinked (hmem (touches_dest hc)) hback
  rw [placeIn_inj hj hplace] at hpath
  exact hs.acyclic s.shape (.head' ⟨c, s, t, hc, rfl, rfl⟩ hpath)

/-- The next cable can be copied. -/
theorem Copied.connect (h : Copied d e all ids done) (hs : d.Sound [])
    (hc : d.ends? c = some (s, some t)) (hsource : s.shape ∈ ids) (hdest : t.shape ∈ ids)
    (hnew : t ∉ done) :
    (Edit.connect (s.rename (placeIn all)) (t.rename (placeIn all))).run e =
        (.ok e.nextCable, e.join (s.rename (placeIn all)) (t.rename (placeIn all))) ∧
      Copied d (e.join (s.rename (placeIn all)) (t.rename (placeIn all))) all ids
        (done ++ [t]) := by
  have hfault := h.joinFault?_eq_none hs hc hsource hdest hnew
  obtain ⟨bodies, wires, hcons, hbodies, hwires⟩ := h.consists
  obtain ⟨hrun, hjoin⟩ := hcons.connect hfault
  refine ⟨hrun, h.mem_all, h.nodup, h.isPrefix, bodies, _, hjoin, hbodies, ?_⟩
  exact List.rel_append hwires (.cons ⟨c, s, hc, rfl⟩ .nil)

/-- The next shape can be copied. -/
theorem Copied.addShape (h : Copied d e all ids done) (hfront : ids ++ [id] <+: all)
    {a : Shape α} (hconf : a.body.Conforms) (ha : d.body? id = some a.body) :
    e.nextShape = placeIn all id ∧ Copied d (e.addShape a) all (ids ++ [id]) done := by
  obtain ⟨bodies, wires, hcons, hbodies, hwires⟩ := h.consists
  have hnew : Copied d (e.addShape a) all (ids ++ [id]) done :=
    ⟨h.mem_all, h.nodup, hfront, _, _, hcons.addShape hconf,
      List.rel_append hbodies (.cons ha .nil), hwires⟩
  refine ⟨?_, hnew⟩
  rw [hcons.nextShape, hnew.placeIn_of_getElem? (n := ids.length) (by simp), hbodies.length_eq]

/-! ## The whole copy -/

theorem Copied.ends? (h : Copied d e all ids done) (hs : d.Sound []) (hnodup : done.Nodup)
    (hc : d.ends? c = some (s, some t)) (ht : t ∈ done) :
    e.ends? (cableIn d done c) =
      some (s.rename (placeIn all), some (t.rename (placeIn all))) := by
  obtain ⟨bodies, wires, hcons, -, hwires⟩ := h.consists
  obtain ⟨n, hn⟩ := List.mem_iff_getElem?.1 ht
  obtain ⟨w, hw, c', s', hc', rfl⟩ := getElem?_of_forall₂ hwires hn
  obtain ⟨hlt, hget⟩ := List.getElem?_eq_some_iff.1 hn
  -- no other cable has landed there
  have hsame : c' = c := hs.eq_of_touches_input (touches_dest hc) (touches_dest hc')
    (hs.dest_side hc)
  rw [hsame, hc] at hc'
  cases hc'
  rw [cableIn_of_ends? hc, hcons.ends, ← hget, hnodup.idxOf_getElem n hlt]
  simp only
  rw [hw, Option.map_some, hget]

/-- Once all shapes and cables have been copied, the copy is isomorphic to the diagram. -/
theorem Copied.isomorphism (h : Copied d e all all done) (hs : d.Sound []) (hnodup : done.Nodup)
    (hdone : ∀ c s t, d.ends? c = some (s, some t) → t ∈ done) :
    Isomorphism d e (placeIn all) (cableIn d done) := by
  have hbody : ∀ i, (d.body? i).isSome → e.body? (placeIn all i) = d.body? i :=
    fun i hi => h.body? ((h.mem_all i).2 hi)
  have hends := fun c s t hc => h.ends? hs hnodup hc (hdone c s t hc)
  refine ⟨⟨?_, ?_, ?_⟩, hbody, ⟨?_, ?_, ?_⟩, hends⟩
  · exact fun i hi => (congrArg Option.isSome (hbody i hi)).trans hi
  · intro i hi j _ hij
    exact placeIn_inj ((h.mem_all i).2 hi) hij
  · intro i hi
    obtain ⟨j, hj, rfl⟩ := h.exists_of_isSome hi
    exact ⟨j, (h.mem_all j).1 hj, rfl⟩
  · rintro c ⟨s, t, hc⟩
    exact ⟨_, _, hends c s t hc⟩
  · rintro c ⟨s, t, hc⟩ c' ⟨s', t', hc'⟩ heq
    rw [cableIn_of_ends? hc, cableIn_of_ends? hc'] at heq
    have ht : t = t' := (List.idxOf_inj (hdone c s t hc)).1 (congrArg CableId.slot heq)
    subst ht
    exact hs.eq_of_touches_input (touches_dest hc') (touches_dest hc) (hs.dest_side hc)
  · rintro k ⟨s', t', hk⟩
    obtain ⟨bodies, wires, hcons, -, hwires⟩ := h.consists
    rw [hcons.ends] at hk
    obtain ⟨w, hw, -⟩ := Option.map_eq_some_iff.1 hk
    obtain ⟨t, hn, c, s, hc, -⟩ := getElem?_of_forall₂ hwires.flip hw
    obtain ⟨hlt, hget⟩ := List.getElem?_eq_some_iff.1 hn
    refine ⟨c, ⟨s, t, hc⟩, ?_⟩
    rw [cableIn_of_ends? hc, ← hget, hnodup.idxOf_getElem k.slot hlt]

end Diagram

end Patchbay
