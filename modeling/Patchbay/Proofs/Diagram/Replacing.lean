import Mathlib.Data.List.Nodup
import Patchbay.Proofs.Diagram.Sound

/-!
# Replacing a step

While a step is being replaced the new step is in its slot but in no list yet, and the cables of the
old step go over to it one by one. `Midway` is what holds in between: the cables still to be carried
over are as they were, the old step has no others, and under the renaming of the new step to the old
one every path of cables is a path of the diagram at the start. So each cable can be carried over
without checks: its new magnet is still free, has the datatype of the old one, and a loop would have
been there from the start.

Each round deals with one cable (`Handled`) and keeps `Midway`, whether the cable is carried over
(`Midway.reroute`) or cut (`Midway.cut`). Once no cable is left the old step may go
(`Midway.sound_finish`), and so a replacement is refused at the start or goes through
(`run_replaceStep`).
-/

namespace Patchbay

namespace Diagram

open Relation

variable {α : Type} {d : Diagram α}

/-! ## Shapes and their cables -/

theorem Wired.nodup_cablesOn (h : d.Wired) {id : ShapeId} {s : Shape α}
    (hs : d.shape? id = some s) (side : Side) : ((s.magnets side).flatMap (·.cables)).Nodup := by
  have hmag : ∀ {i m}, (s.magnets side)[i]? = some m → d.magnet? ⟨id, side, i⟩ = some m := by
    intro i m hi
    rw [magnet?_of_shape? hs]
    exact hi
  refine List.nodup_flatMap.2 ⟨fun m hm => ?_, ?_⟩
  · obtain ⟨i, hi⟩ := List.mem_iff_getElem?.1 hm
    exact h.nodup (hmag hi)
  · refine List.pairwise_iff_getElem.2 fun i j hi hj hij => ?_
    intro c hci hcj
    have hti := (h.mem_cables (hmag (List.getElem?_eq_getElem hi)) c).1 hci
    have htj := (h.mem_cables (hmag (List.getElem?_eq_getElem hj)) c).1 hcj
    have := congrArg Terminal.index (h.eq_of_touches hti htj rfl)
    exact absurd this (Nat.ne_of_lt hij)

/-- A shape holds each of its cables once, because no cable runs back to the shape it comes from. -/
theorem Wired.nodup_cables (h : d.Wired) {id : ShapeId} {s : Shape α}
    (hs : d.shape? id = some s) : s.cables.Nodup := by
  unfold Shape.cables Shape.allMagnets
  rw [List.flatMap_append]
  refine List.nodup_append'.2 ⟨h.nodup_cablesOn hs .input, h.nodup_cablesOn hs .output, ?_⟩
  intro c hin hout
  obtain ⟨m, hm, hcm⟩ := List.mem_flatMap.1 hin
  obtain ⟨n, hn, hcn⟩ := List.mem_flatMap.1 hout
  obtain ⟨i, hi⟩ := List.mem_iff_getElem?.1 hm
  obtain ⟨j, hj⟩ := List.mem_iff_getElem?.1 hn
  have hmi : d.magnet? ⟨id, .input, i⟩ = some m := (magnet?_of_shape? hs).trans hi
  have hnj : d.magnet? ⟨id, .output, j⟩ = some n := (magnet?_of_shape? hs).trans hj
  obtain ⟨t, ht⟩ := h.landed hmi rfl hcm
  obtain ⟨o, ho⟩ := h.started hnj rfl hcn
  cases ht.symm.trans ho
  exact h.acyclic.ne ⟨c, _, _, ht, rfl, rfl⟩ rfl

end Diagram

/-! ## What is carried over -/

namespace Edit

variable {α : Type}

theorem map_fst_carryOver (old new : List (Magnet α)) :
    (carryOver old new).map (·.1) = old.flatMap (·.cables) := by
  unfold carryOver
  rw [List.map_flatMap]
  simp only [List.map_map, Function.comp_def, List.map_id']
  conv_rhs => rw [← List.zipIdx_map_fst 0 old]
  rw [List.flatMap_map]

/-- A cable is carried over to the magnet at the same index, if its datatype is the same. -/
theorem mem_carryOver {old new : List (Magnet α)} {c : CableId} {target : Option Nat}
    (h : (c, target) ∈ carryOver old new) : ∃ i m, old[i]? = some m ∧ c ∈ m.cables ∧
      target = if (new[i]?).any (·.datatype = m.datatype) then some i else none := by
  obtain ⟨⟨m, i⟩, hm, hc⟩ := List.mem_flatMap.1 h
  obtain ⟨x, hx, hxc⟩ := List.mem_map.1 hc
  cases hxc
  exact ⟨i, m, List.mem_zipIdx_iff_getElem?.1 hm, hx, rfl⟩

end Edit

/-! ## Redirecting -/

namespace Terminal

variable {t : Terminal} {old new : ShapeId}

/-- The place on the new shape, if it is one on the old shape. Other places stay. -/
def redirect (t : Terminal) (old new : ShapeId) : Terminal :=
  if t.shape = old then { t with shape := new } else t

theorem redirect_of_eq (h : t.shape = old) : t.redirect old new = { t with shape := new } :=
  if_pos h

theorem redirect_of_ne (h : t.shape ≠ old) : t.redirect old new = t := if_neg h

theorem redirect_shape (t : Terminal) (old new : ShapeId) :
    (t.redirect old new).shape = if t.shape = old then new else t.shape := by
  unfold redirect
  split <;> rfl

@[simp] theorem redirect_side (t : Terminal) (old new : ShapeId) :
    (t.redirect old new).side = t.side := by
  unfold redirect
  split <;> rfl

@[simp] theorem redirect_index (t : Terminal) (old new : ShapeId) :
    (t.redirect old new).index = t.index := by
  unfold redirect
  split <;> rfl

end Terminal

/-! ## The swap -/

open Diagram Edit Relation Running

/-- A step of a sound diagram, and the step that takes its place. -/
structure Swap (α : Type) [Scalar α] where
  before : Diagram α
  old : ShapeId
  previous : Shape α
  next : Shape α
  sound : before.Sound []
  found : before.shape? old = some previous
  previous_isStep : previous.isStep
  next_isStep : next.isStep
  conforms : next.body.Conforms

namespace Swap

variable {α : Type} [Scalar α] (w : Swap α) {d : Diagram α}

def new : ShapeId := w.before.nextShape

/-- The name at the start of what has a name in between. -/
def back (i : ShapeId) : ShapeId := if i = w.new then w.old else i

/-- The place on the new step for a place on the old one. -/
def moved (t : Terminal) : Terminal := t.redirect w.old w.new

/-- The new step has a magnet for the place, of the same datatype. Other places always fit. -/
def Fits (t : Terminal) : Prop :=
  t.shape = w.old → ∃ m n, (w.previous.magnets t.side)[t.index]? = some m ∧
    (w.next.magnets t.side)[t.index]? = some n ∧ n.datatype = m.datatype

/-- The cable has two ends, and the new step has a magnet for each of them that was on the old one. -/
def Carries (c : CableId) : Prop :=
  ∃ s t, w.before.ends? c = some (s, some t) ∧ w.Fits s ∧ w.Fits t

theorem fits_of_ne {t : Terminal} (h : t.shape ≠ w.old) : w.Fits t := fun ht => absurd ht h

/-- A magnet of the old step has one to go over to if that has the same datatype. -/
theorem fits_iff {side : Side} {i : Nat} {m : Magnet α}
    (hm : (w.previous.magnets side)[i]? = some m) : w.Fits ⟨w.old, side, i⟩ ↔
      ((w.next.magnets side)[i]?).any (·.datatype = m.datatype) := by
  rw [Option.any_eq_true]
  constructor
  · intro hfit
    obtain ⟨m', n, hm', hn, hdata⟩ := hfit rfl
    cases hm.symm.trans hm'
    exact ⟨n, hn, decide_eq_true hdata⟩
  · rintro ⟨n, hn, hdata⟩ -
    exact ⟨m, n, hm, hn, of_decide_eq_true hdata⟩

theorem body?_new : w.before.body? w.new = none :=
  body?_eq_none_iff.2 (shape?_nextShape w.before)

theorem body?_old : w.before.body? w.old = some w.previous.body := by
  simp [body?, w.found]

theorem old_ne_new : w.old ≠ w.new := by
  intro h
  have := w.body?_old
  rw [h, w.body?_new] at this
  cases this

/-- Nothing at the start is called like the new step. -/
theorem ne_new {c : CableId} {t : Terminal} (h : w.before.Touches c t) : t.shape ≠ w.new := by
  intro ht
  have := w.sound.live h
  rw [ht, w.body?_new] at this
  cases this

@[simp] theorem moved_side (t : Terminal) : (w.moved t).side = t.side := t.redirect_side _ _

theorem moved_of_eq {t : Terminal} (h : t.shape = w.old) : w.moved t = { t with shape := w.new } :=
  Terminal.redirect_of_eq h

theorem moved_of_ne {t : Terminal} (h : t.shape ≠ w.old) : w.moved t = t :=
  Terminal.redirect_of_ne h

theorem moved_shape_ne (t : Terminal) : (w.moved t).shape ≠ w.old := by
  rw [moved, Terminal.redirect_shape]
  split
  · exact w.old_ne_new.symm
  · assumption

theorem back_of_ne {i : ShapeId} (h : i ≠ w.new) : w.back i = i := if_neg h

theorem back_moved {t : Terminal} (h : t.shape ≠ w.new) : w.back (w.moved t).shape = t.shape := by
  by_cases ht : t.shape = w.old
  · rw [w.moved_of_eq ht, back, if_pos rfl, ht]
  · rw [w.moved_of_ne ht, w.back_of_ne h]

theorem moved_injective {t u : Terminal} (ht : t.shape ≠ w.new) (hu : u.shape ≠ w.new)
    (h : w.moved t = w.moved u) : t = u := by
  have hshape : t.shape = u.shape := by rw [← w.back_moved ht, h, w.back_moved hu]
  have hside : t.side = u.side := by rw [← w.moved_side t, h, w.moved_side]
  have hindex : t.index = u.index := by
    have hi : ∀ v, (w.moved v).index = v.index := fun v => v.redirect_index _ _
    rw [← hi t, h, hi]
  cases t; cases u; simp_all

/-! ## In between -/

/-- What holds while the pending cables of the old step are still to be carried over. -/
structure Midway (pending : List CableId) (d : Diagram α) : Prop where
  sound : d.Sound [w.new]
  body_old : d.body? w.old = some w.previous.body
  body_new : d.body? w.new = some w.next.body
  nodup : pending.Nodup
  untouched : ∀ c ∈ pending, (w.before.ends? c).isSome ∧ d.ends? c = w.before.ends? c
  only : d.OnlyPending w.old pending
  /-- No path has come about that was not there at the start. -/
  feeds : ∀ a b, d.Feeds a b → w.before.Feeds (w.back a) (w.back b)
  /-- The magnet that a pending cable is to land on has no other cable. -/
  vacant : ∀ c ∈ pending, ∀ s t, d.ends? c = some (s, some t) → ∀ x, d.Touches x (w.moved t) → x = c

variable {w} {pending : List CableId} {c : CableId}

theorem Midway.live (h : w.Midway (c :: pending) d) : ∃ k, d.cable? c = some k := by
  obtain ⟨hlive, he⟩ := h.untouched c List.mem_cons_self
  rw [← he, isSome_ends?] at hlive
  exact Option.isSome_iff_exists.1 hlive

theorem Midway.ends?_before (h : w.Midway pending d) (hc : c ∈ pending)
    {e : Terminal × Option Terminal} (hends : d.ends? c = some e) :
    w.before.ends? c = some e := by
  rw [← (h.untouched c hc).2, hends]

/-- The new place of a cable has a magnet of the same datatype. -/
theorem Midway.magnet?_moved (h : w.Midway pending d) {t : Terminal} {m : Magnet α}
    (hm : d.magnet? t = some m) (hfit : w.Fits t) :
    ∃ n, d.magnet? (w.moved t) = some n ∧ n.datatype = m.datatype := by
  by_cases ht : t.shape = w.old
  · obtain ⟨p, q, hp, hq, hdata⟩ := hfit ht
    obtain ⟨m', hm', hclear⟩ := exists_magnet_of_body? h.body_old hp
    obtain ⟨n, hn, hclear'⟩ := exists_magnet_of_body? h.body_new hq
    have ht' : (⟨w.old, t.side, t.index⟩ : Terminal) = t := by rw [← ht]
    rw [ht', hm] at hm'
    cases hm'
    refine ⟨n, by rw [w.moved_of_eq ht]; exact hn, ?_⟩
    have hleft : n.datatype = q.datatype := congrArg (·.datatype) hclear'
    have hright : m.datatype = p.datatype := congrArg (·.datatype) hclear
    rw [hleft, hright, hdata]
  · exact ⟨m, by rw [w.moved_of_ne ht, hm], rfl⟩

/-- Once a cable has been unplugged, another may run between the new places of its ends. -/
theorem Midway.landable (h : w.Midway (c :: pending) d) {k : Cable α} (hk : d.cable? c = some k)
    {s t : Terminal} (hends : d.ends? c = some (s, some t)) (hs : w.Fits s) (ht : w.Fits t) :
    (d.unplug c k).Landable (w.moved s) (w.moved t) := by
  have hbefore := h.ends?_before List.mem_cons_self hends
  refine ⟨?_, ?_, ?_⟩
  · rw [w.moved_side, h.sound.dest_side hends]
  · obtain ⟨m, hm, -⟩ := h.sound.source hends
    obtain ⟨n, hn, -⟩ := h.sound.dest hends
    obtain ⟨m', hm', hmdata⟩ := h.magnet?_moved hm hs
    obtain ⟨n', hn', hndata⟩ := h.magnet?_moved hn ht
    refine ⟨m'.unhook c, n'.unhook c, ?_, ?_, ?_, ?_⟩
    · rw [h.sound.magnet?_unplug hk, hm', Option.map_some]
    · rw [h.sound.magnet?_unplug hk, hn', Option.map_some]
    · refine List.eq_nil_iff_forall_not_mem.2 fun x hx => ?_
      obtain ⟨hx, hne⟩ := Magnet.mem_unhook.1 hx
      exact hne (h.vacant c List.mem_cons_self s t hends x ((h.sound.mem_cables hn' x).1 hx))
    · have hsame : (m'.unhook c).accepts (n'.unhook c) = m.accepts n :=
        Magnet.accepts_congr hmdata hndata
      rw [hsame]
      exact h.sound.accepts hends hm hn
  · -- A path back would have been there before, where the cable closes it.
    intro hpath
    have hlift : ReflTransGen w.before.Feeds t.shape s.shape := by
      rw [← w.back_moved (w.ne_new (touches_dest hbefore)),
        ← w.back_moved (w.ne_new (touches_source hbefore))]
      exact hpath.lift w.back fun a b hab => h.feeds a b (feeds_of_feeds_unplug hab)
    exact w.sound.acyclic t.shape (.tail' hlift ⟨c, s, t, hbefore, rfl, rfl⟩)

/-- A cable is carried over: taken off, and laid anew between the new places of its ends. -/
theorem Midway.reroute (h : w.Midway (c :: pending) d) {k : Cable α} (hk : d.cable? c = some k)
    {s t : Terminal} (hends : d.ends? c = some (s, some t)) (hs : w.Fits s) (ht : w.Fits t) :
    w.Midway pending ((d.unplug c k).join (w.moved s) (w.moved t)) := by
  have hbefore := h.ends?_before List.mem_cons_self hends
  have hs_ne := w.ne_new (touches_source hbefore)
  have ht_ne := w.ne_new (touches_dest hbefore)
  have hc_notMem := (List.nodup_cons.1 h.nodup).1
  have hends' : ∀ x ∈ pending,
      ((d.unplug c k).join (w.moved s) (w.moved t)).ends? x = d.ends? x := by
    intro x hx
    have hx' := h.untouched x (List.mem_cons_of_mem c hx)
    have hxc : c ≠ x := fun hxc => hc_notMem (hxc ▸ hx)
    have hold : (d.unplug c k).ends? x = d.ends? x := by rw [ends?_unplug, if_neg hxc]
    rw [ends?_join, if_neg, hold]
    rintro rfl
    rw [← hx'.2, ← hold, ends?_nextCable] at hx'
    cases hx'.1
  refine { sound := ?_, body_old := ?_, body_new := ?_, nodup := (List.nodup_cons.1 h.nodup).2,
           untouched := ?_, only := ?_, feeds := ?_, vacant := ?_ }
  · exact (h.sound.unplug hk).join (by rw [w.moved_side, h.sound.source_side hends])
      (h.landable hk hends hs ht)
  · rw [body?_join, body?_unplug, h.body_old]
  · rw [body?_join, body?_unplug, h.body_new]
  · intro x hx
    rw [hends' x hx]
    exact h.untouched x (List.mem_cons_of_mem c hx)
  · intro x u hx hu
    rcases (touches_join _ _ _ x u).1 hx with hx | ⟨-, rfl | rfl⟩
    · obtain ⟨hx, hne⟩ := (touches_unplug d c k x u).1 hx
      exact (List.mem_cons.1 (h.only x u hx hu)).resolve_left hne
    · exact absurd hu (w.moved_shape_ne s)
    · exact absurd hu (w.moved_shape_ne t)
  · intro a b hab
    rcases feeds_of_feeds_join hab with hab | ⟨rfl, rfl⟩
    · exact h.feeds a b (feeds_of_feeds_unplug hab)
    · rw [w.back_moved hs_ne, w.back_moved ht_ne]
      exact ⟨c, s, t, hbefore, rfl, rfl⟩
  · intro x hx s' t' hx' y hy
    have hxmem := List.mem_cons_of_mem c hx
    rw [hends' x hx] at hx'
    rcases (touches_join _ _ _ y _).1 hy with hy | ⟨-, hy | hy⟩
    · exact h.vacant x hxmem s' t' hx' y ((touches_unplug d c k y _).1 hy).1
    · have hsides := congrArg Terminal.side hy
      rw [w.moved_side, w.moved_side, h.sound.dest_side hx', h.sound.source_side hends] at hsides
      cases hsides
    · have hx₀ := h.ends?_before hxmem hx'
      have htt := w.moved_injective (w.ne_new (touches_dest hx₀)) ht_ne hy
      have hxc := w.sound.eq_of_touches_input (touches_dest hbefore) (htt ▸ touches_dest hx₀)
        (w.sound.dest_side hbefore)
      exact absurd (hxc ▸ hx) hc_notMem

/-- A cable that finds no place on the new step is cut. -/
theorem Midway.cut (h : w.Midway (c :: pending) d) {k : Cable α} (hk : d.cable? c = some k) :
    w.Midway pending (d.cut c k) := by
  have hold : d.has Shape.isOutput w.old = false := by
    rw [has_of_body? bodily_isOutput h.body_old, Shape.isOutput_eq_false_of_isStep w.previous_isStep]
  have hnew : d.has Shape.isOutput w.new = false := by
    rw [has_of_body? bodily_isOutput h.body_new, Shape.isOutput_eq_false_of_isStep w.next_isStep]
  have hne : ∀ {x}, x ∈ pending → c ≠ x := fun hx hcx => (List.nodup_cons.1 h.nodup).1 (hcx ▸ hx)
  refine { sound := h.sound.cut hk, body_old := ?_, body_new := ?_,
           nodup := (List.nodup_cons.1 h.nodup).2, untouched := ?_, only := ?_, feeds := ?_,
           vacant := ?_ }
  · rw [body?_cut_of_not_output hold, h.body_old]
  · rw [body?_cut_of_not_output hnew, h.body_new]
  · intro x hx
    rw [ends?_cut, if_neg (hne hx)]
    exact h.untouched x (List.mem_cons_of_mem c hx)
  · intro x u hx hu
    obtain ⟨hx, hxc⟩ := (touches_cut d c k x u).1 hx
    exact (List.mem_cons.1 (h.only x u hx hu)).resolve_left hxc
  · rintro a b ⟨x, s, t, hx, rfl, rfl⟩
    rw [ends?_cut] at hx
    split at hx
    · cases hx
    · exact h.feeds _ _ ⟨x, s, t, hx, rfl, rfl⟩
  · intro x hx s t hends y hy
    rw [ends?_cut, if_neg (hne hx)] at hends
    exact h.vacant x (List.mem_cons_of_mem c hx) s t hends y ((touches_cut d c k y _).1 hy).1

variable (w) in
/-- A cable of the old step has been dealt with: it is carried over if it can be, and cut if not. -/
def Handled (d : Diagram α) (c : CableId) (d' : Diagram α) : Prop :=
  ∃ k, d.cable? c = some k ∧
    ((∃ s t, d.ends? c = some (s, some t) ∧ w.Fits s ∧ w.Fits t ∧
        d' = (d.unplug c k).join (w.moved s) (w.moved t)) ∨
      ¬ w.Carries c ∧ d' = d.cut c k)

theorem Midway.handled {d' : Diagram α} (h : w.Midway (c :: pending) d) (hd : w.Handled d c d') :
    w.Midway pending d' := by
  obtain ⟨k, hk, ⟨s, t, hends, hs, ht, rfl⟩ | ⟨-, rfl⟩⟩ := hd
  · exact h.reroute hk hends hs ht
  · exact h.cut hk

/-! ## The start -/

variable (w)

/-- The diagram with the new step in its slot. -/
def placed (w : Swap α) : Diagram α :=
  w.before.placeShape { w.next with position := w.previous.position, shift := w.previous.shift }

theorem ends?_placed (c : CableId) : w.placed.ends? c = w.before.ends? c := rfl

theorem body?_placed (i : ShapeId) :
    w.placed.body? i = if i = w.new then some w.next.body else w.before.body? i :=
  body?_placeShape w.before _ i

theorem midway_placed : w.Midway w.previous.cables w.placed where
  sound := w.sound.placeShape w.conforms
  body_old := by rw [body?_placed, if_neg w.old_ne_new, w.body?_old]
  body_new := by rw [body?_placed, if_pos rfl]
  nodup := w.sound.nodup_cables w.found
  untouched c hc := by
    refine ⟨?_, w.ends?_placed c⟩
    obtain ⟨u, -, s, o, he, -⟩ := w.sound.toLinked.touches_of_mem_cables w.found hc
    rw [he]
    rfl
  only := w.sound.toLinked.onlyPending_cables w.found
  feeds a b hab := by
    have hab' : w.before.Feeds a b := hab
    obtain ⟨c, s, t, hc, rfl, rfl⟩ := hab'
    rw [w.back_of_ne (w.ne_new (touches_source hc)), w.back_of_ne (w.ne_new (touches_dest hc))]
    exact hab
  vacant c _ s t hc x hx := by
    have hc' : w.before.ends? c = some (s, some t) := hc
    have hx' : w.before.Touches x (w.moved t) := hx
    by_cases ht : t.shape = w.old
    · -- The new step has no cables yet.
      exact absurd (by rw [w.moved_of_eq ht]) (w.ne_new hx')
    · rw [w.moved_of_ne ht] at hx'
      exact w.sound.eq_of_touches_input (touches_dest hc') hx' (w.sound.dest_side hc')

/-! ## The end -/

/-- The name in the end of what has a name in between. -/
def forth (i : ShapeId) : ShapeId := if i = w.old then w.new else i

/-- The old step leaves its slot, and the new one takes its place in the lists. -/
def finish (d : Diagram α) : Diagram α :=
  { d with
    shapeSlots := d.shapeSlots.remove w.old.slot
    order := d.order.map w.forth
    steps := d.steps.map w.forth }

theorem forth_of_ne {i : ShapeId} (h : i ≠ w.old) : w.forth i = i := if_neg h

theorem back_forth {i : ShapeId} (h : i ≠ w.new) : w.back (w.forth i) = i := by
  by_cases hi : i = w.old
  · rw [forth, if_pos hi, back, if_pos rfl, hi]
  · rw [w.forth_of_ne hi, w.back_of_ne h]

theorem map_forth {l : List ShapeId} (h : w.old ∉ l) : l.map w.forth = l := by
  refine (List.map_congr_left fun i hi => w.forth_of_ne ?_).trans (List.map_id l)
  rintro rfl
  exact h hi

theorem shape?_finish (d : Diagram α) (i : ShapeId) :
    (w.finish d).shape? i = (d.removeShape w.old).shape? i := by
  rw [shape?_removeShape]
  simp [finish, shape?, Arena.get?_remove, ShapeId.slot_inj]

theorem body?_finish (d : Diagram α) (i : ShapeId) :
    (w.finish d).body? i = if w.old = i then none else d.body? i := by
  rw [← body?_removeShape, body?, w.shape?_finish, body?]

variable {w}

theorem Midway.notMem_order (h : w.Midway [] d) : w.new ∉ d.order := by
  rw [h.sound.mem_order]
  simp

theorem Midway.old_mem_order (h : w.Midway [] d) : w.old ∈ d.order := by
  rw [h.sound.mem_order, h.body_old]
  simpa using w.old_ne_new

/-- The kind of a shape is the same under the name it has in the end. -/
theorem Midway.has_finish (h : w.Midway [] d) {p : Shape α → Bool} (hp : Bodily p)
    (hsame : p w.previous = p w.next) {i : ShapeId} (hi : i ∈ d.order) :
    (w.finish d).has p (w.forth i) = d.has p i := by
  by_cases hold : i = w.old
  · subst hold
    rw [forth, if_pos rfl, has_of_body? hp h.body_old, hsame]
    exact has_of_body? hp (by rw [w.body?_finish, if_neg w.old_ne_new, h.body_new])
  · rw [w.forth_of_ne hold]
    exact has_congr hp (by rw [w.body?_finish, if_neg (Ne.symm hold)])

theorem Midway.filter_finish (h : w.Midway [] d) {p : Shape α → Bool} (hp : Bodily p)
    (hsame : p w.previous = p w.next) :
    (w.finish d).order.filter ((w.finish d).has p) = (d.order.filter (d.has p)).map w.forth := by
  change (d.order.map w.forth).filter _ = _
  rw [List.filter_map]
  exact congrArg _ (List.filter_congr fun i hi => h.has_finish hp hsame hi)

theorem Midway.shapesListed_finish (h : w.Midway [] d) : (w.finish d).ShapesListed [] where
  order_nodup := by
    refine List.Nodup.map_on ?_ h.sound.order_nodup
    intro i hi j hj hij
    have hne : ∀ {x}, x ∈ d.order → x ≠ w.new := fun hx hxn => h.notMem_order (hxn ▸ hx)
    rw [← w.back_forth (hne hi), hij, w.back_forth (hne hj)]
  mem_order i := by
    change i ∈ d.order.map w.forth ↔ _
    rw [List.mem_map, w.body?_finish]
    constructor
    · rintro ⟨j, hj, rfl⟩
      by_cases hold : j = w.old
      · rw [forth, if_pos hold, if_neg w.old_ne_new, h.body_new]
        simp
      · rw [w.forth_of_ne hold, if_neg (Ne.symm hold)]
        exact ⟨((h.sound.mem_order j).1 hj).1, by simp⟩
    · intro hi
      by_cases hnew : i = w.new
      · exact ⟨w.old, h.old_mem_order, by rw [forth, if_pos rfl, hnew]⟩
      · by_cases hold : w.old = i
        · simp [hold] at hi
        · rw [if_neg hold] at hi
          refine ⟨i, (h.sound.mem_order i).2 ⟨hi.1, ?_⟩, w.forth_of_ne (Ne.symm hold)⟩
          simpa using hnew
  inputs_eq := by
    have hin := Shape.isInput_eq_false_of_isStep w.previous_isStep
    have hin' := Shape.isInput_eq_false_of_isStep w.next_isStep
    rw [h.filter_finish bodily_isInput (hin.trans hin'.symm)]
    refine h.sound.inputs_eq.trans (w.map_forth fun hmem => ?_).symm
    have := (List.mem_filter.1 hmem).2
    rw [has_of_body? bodily_isInput h.body_old, hin] at this
    cases this
  steps_eq := by
    have hstep := w.previous_isStep.trans w.next_isStep.symm
    rw [h.filter_finish bodily_isStep hstep, ← h.sound.steps_eq]
    rfl
  outputs_eq := by
    have hout := Shape.isOutput_eq_false_of_isStep w.previous_isStep
    have hout' := Shape.isOutput_eq_false_of_isStep w.next_isStep
    rw [h.filter_finish bodily_isOutput (hout.trans hout'.symm)]
    refine h.sound.outputs_eq.trans (w.map_forth fun hmem => ?_).symm
    have := (List.mem_filter.1 hmem).2
    rw [has_of_body? bodily_isOutput h.body_old, hout] at this
    cases this

theorem Midway.sound_finish (h : w.Midway [] d) : (w.finish d).Sound [] where
  toShapesListed := h.shapesListed_finish
  toCablesListed := h.sound.toCablesListed.congr (fun _ => rfl) rfl
  toWired := by
    have hbare : ∀ u : Terminal, u.shape = w.old → d.BareAt u :=
      fun u hu => h.sound.bareAt_of_onlyPending h.only hu
    refine (h.sound.toWired.removeShape hbare).of_frame (fun c => ?_) fun u => .inl ?_
    · rw [ends?_removeShape]
      rfl
    · rw [magnet?_eq, magnet?_eq, w.shape?_finish]
  conforming := (h.sound.conforming.removeShape w.old).congr fun i => by
    rw [w.body?_finish, body?_removeShape]

/-! ## The rounds -/

theorem Midway.run_detach_join (h : w.Midway (c :: pending) d) {s t : Terminal}
    (hends : d.ends? c = some (s, some t)) (hs : w.Fits s) (ht : w.Fits t)
    {f : Cable α → Terminal × Terminal}
    (hf : ∀ k, d.cable? c = some k → f k = (w.moved s, w.moved t)) :
    ∃ d', (do let k ← detach c; modify (·.join (f k).1 (f k).2) : Edit α PUnit).run d =
      (.ok ⟨⟩, d') ∧ w.Handled d c d' := by
  obtain ⟨k, hk⟩ := h.live
  refine ⟨_, ?_, k, hk, .inl ⟨s, t, hends, hs, ht, rfl⟩⟩
  rw [run_bind_ok (b := k) (by rw [run_detach, hk]), hf k hk, run_modify]

theorem Midway.run_deleteCable (h : w.Midway (c :: pending) d) (hc : ¬ w.Carries c) :
    ∃ d', (deleteCable c).run d = (.ok (), d') ∧ w.Handled d c d' := by
  obtain ⟨k, hk⟩ := h.live
  exact ⟨_, by rw [Edit.run_deleteCable, hk], k, hk, .inr ⟨hc, rfl⟩⟩

/-- A cable that arrives at the old step is carried over or cut. -/
theorem Midway.run_carryInput (h : w.Midway (c :: pending) d) {target : Option Nat}
    (hmem : (c, target) ∈ carryOver w.previous.inputs w.next.inputs) :
    ∃ d', (carryInput w.new c target).run d = (.ok ⟨⟩, d') ∧ w.Handled d c d' := by
  obtain ⟨i, m, hm, hcm, rfl⟩ := mem_carryOver hmem
  have hmag : w.before.magnet? ⟨w.old, .input, i⟩ = some m := (magnet?_of_shape? w.found).trans hm
  have hfits : w.Fits ⟨w.old, .input, i⟩ ↔ _ := w.fits_iff hm
  obtain ⟨s, hbefore⟩ := w.sound.landed hmag rfl hcm
  split
  · rename_i hfit
    have hends := (h.untouched c List.mem_cons_self).2.trans hbefore
    have hne : s.shape ≠ w.old := w.sound.acyclic.ne ⟨c, s, _, hbefore, rfl, rfl⟩
    refine h.run_detach_join hends (w.fits_of_ne hne) (hfits.2 hfit)
      (f := fun k => (k.source, ⟨w.new, .input, i⟩)) fun k hk => ?_
    rw [ends?_eq_some hk] at hends
    rw [(Prod.mk.inj (Option.some.inj hends)).1, w.moved_of_ne hne, w.moved_of_eq rfl]
  · rename_i hmisfit
    refine h.run_deleteCable ?_
    rintro ⟨s', t', hends, -, ht'⟩
    cases hbefore.symm.trans hends
    exact hmisfit (hfits.1 ht')

/-- A cable that leaves the old step is carried over or cut. -/
theorem Midway.run_carryOutput (h : w.Midway (c :: pending) d) {target : Option Nat}
    (hmem : (c, target) ∈ carryOver w.previous.outputs w.next.outputs) :
    ∃ d', (carryOutput w.new c target).run d = (.ok ⟨⟩, d') ∧ w.Handled d c d' := by
  obtain ⟨i, m, hm, hcm, rfl⟩ := mem_carryOver hmem
  have hmag : w.before.magnet? ⟨w.old, .output, i⟩ = some m := (magnet?_of_shape? w.found).trans hm
  have hfits : w.Fits ⟨w.old, .output, i⟩ ↔ _ := w.fits_iff hm
  obtain ⟨o, hbefore⟩ := w.sound.started hmag rfl hcm
  have hends := (h.untouched c List.mem_cons_self).2.trans hbefore
  obtain ⟨k, hk, hsource, hdest⟩ := exists_cable_of_ends? hends
  unfold carryOutput
  rw [run_get_bind, hk, Option.bind_some, hdest]
  split
  · rename_i index t htarget
    split at htarget
    · rename_i hfit
      cases htarget
      have hne : t.shape ≠ w.old := (w.sound.acyclic.ne ⟨c, _, t, hbefore, rfl, rfl⟩).symm
      refine h.run_detach_join hends (hfits.2 hfit) (w.fits_of_ne hne)
        (f := fun _ => (⟨w.new, .output, i⟩, t)) fun k hk => ?_
      rw [w.moved_of_ne hne, w.moved_of_eq rfl]
    · cases htarget
  · rename_i hmisfit
    refine h.run_deleteCable ?_
    rintro ⟨s', t', hends', hs', -⟩
    cases hbefore.symm.trans hends'
    exact hmisfit i t' (if_pos (hfits.1 hs')) rfl

/-- A loop over cables to be carried over goes through if its rounds do, and it keeps what dealing
with one cable keeps. -/
theorem run_forM {P : List CableId → Diagram α → Prop}
    (hstep : ∀ c pending d d', P (c :: pending) d → w.Handled d c d' → P pending d')
    {all : List (CableId × Option Nat)} {f : CableId × Option Nat → Edit α PUnit}
    (hround : ∀ c target pending d, (c, target) ∈ all → P (c :: pending) d →
      ∃ d', (f (c, target)).run d = (.ok ⟨⟩, d') ∧ w.Handled d c d')
    {rest : List CableId} (h : P (all.map (·.1) ++ rest) d) :
    ∃ d', (all.forM f).run d = (.ok ⟨⟩, d') ∧ P rest d' := by
  have hloop := run_forM_of_inv (f := f)
    (P := fun ps d => (∀ p ∈ ps, p ∈ all) ∧ P (ps.map (·.1) ++ rest) d) ?_ all d
    ⟨fun _ hp => hp, h⟩
  · obtain ⟨d', hrun, -, hd'⟩ := hloop
    exact ⟨d', hrun, hd'⟩
  · rintro ⟨c, target⟩ ps d ⟨hmem, hd⟩
    obtain ⟨d', hrun, hd'⟩ := hround c target _ d (hmem _ List.mem_cons_self) hd
    exact ⟨d', hrun, fun p hp => hmem p (List.mem_cons_of_mem _ hp), hstep _ _ _ _ hd hd'⟩

/-- Replacing goes through, and what dealing with one cable keeps holds before the old step goes. -/
theorem run_replaceStep_of_inv (w : Swap α) {P : List CableId → Diagram α → Prop}
    (hmidway : ∀ pending d, P pending d → w.Midway pending d)
    (hstep : ∀ c pending d d', P (c :: pending) d → w.Handled d c d' → P pending d')
    (hplaced : P w.previous.cables w.placed) : ∃ d, P [] d ∧
      (replaceStep w.old w.next).run w.before =
        (.ok ⟨w.new, w.previous.isFullyConnected != (w.finish d).isFullyConnected w.new⟩,
          w.finish d) := by
  have hstart : P ((carryOver w.previous.inputs w.next.inputs).map (·.1) ++
      w.previous.outputs.flatMap (·.cables)) w.placed := by
    rw [map_fst_carryOver, ← List.flatMap_append]
    exact hplaced
  obtain ⟨d₁, hrun₁, hd₁⟩ := run_forM hstep (f := fun x => carryInput w.new x.1 x.2)
    (fun _ _ _ _ hmem h => (hmidway _ _ h).run_carryInput hmem) hstart
  have hbetween : P ((carryOver w.previous.outputs w.next.outputs).map (·.1) ++ []) d₁ := by
    rw [map_fst_carryOver, List.append_nil]
    exact hd₁
  obtain ⟨d₂, hrun₂, hd₂⟩ := run_forM hstep (f := fun x => carryOutput w.new x.1 x.2)
    (fun _ _ _ _ hmem h => (hmidway _ _ h).run_carryOutput hmem) hbetween
  refine ⟨d₂, hd₂, ?_⟩
  unfold replaceStep
  rw [run_bind_ok (b := w.previous) (by rw [run_requireShape, w.found])]
  simp only [w.previous_isStep, w.next_isStep, if_true]
  refine (run_get_bind _ _).trans ?_
  refine (run_bind_ok (run_modify _ _) _).trans ?_
  refine (run_bind_ok hrun₁ _).trans ?_
  refine (run_bind_ok hrun₂ _).trans ?_
  rfl

/-- Replacing goes through. -/
theorem run_replaceStep (w : Swap α) : ∃ result d',
    (replaceStep w.old w.next).run w.before = (.ok result, d') ∧ d'.Sound [] := by
  obtain ⟨d, hd, hrun⟩ := w.run_replaceStep_of_inv (fun _ _ => id)
    (fun _ _ _ _ h => h.handled) w.midway_placed
  exact ⟨_, _, hrun, hd.sound_finish⟩

end Swap

/-- What stands in the way of replacing a shape by another. -/
def Edit.replaceFault? {α : Type} (d : Diagram α) (old : ShapeId) (next : Shape α) :
    Option Diagram.Error :=
  match d.shape? old with
  | none => some (.unknownShape old)
  | some previous =>
    if !previous.isStep then some (.notAStep previous.label)
    else if !next.isStep then some (.notAStep next.label)
    else none

/-- A replacement is refused at the start, or it goes through. -/
theorem Edit.run_replaceStep {α : Type} [Scalar α] {d : Diagram α} (h : d.Sound []) (old : ShapeId)
    {next : Shape α} (hnext : next.body.Conforms) :
    match replaceFault? d old next with
      | some e => (replaceStep old next).run d = (.error e, d)
      | none => ∃ result d', (replaceStep old next).run d = (.ok result, d') ∧ d'.Sound [] := by
  cases hfound : d.shape? old with
  | none =>
    simp only [replaceFault?, hfound]
    exact run_bind_error (by rw [run_requireShape, hfound]) _
  | some previous =>
    have hstart := run_requireShape old d
    rw [hfound] at hstart
    by_cases hprevious : previous.isStep
    · by_cases hstep : next.isStep
      · simp only [replaceFault?, hfound, hprevious, hstep]
        exact Swap.run_replaceStep ⟨d, old, previous, next, h, hfound, hprevious, hstep, hnext⟩
      · simp only [replaceFault?, hfound, hprevious, hstep]
        refine (run_bind_ok hstart _).trans ?_
        simp only [hprevious, hstep, if_true]
        rfl
    · simp only [replaceFault?, hfound, hprevious]
      refine (run_bind_ok hstart _).trans ?_
      simp only [hprevious]
      rfl

end Patchbay
