import Mathlib.Logic.Relation
import Patchbay.Proofs.Diagram.Views

/-!
# The wiring of a diagram

A cable and its magnets know each other. `Wired` says that they agree (`Linked`), that cables run
from output magnets to input magnets of a fitting datatype which have no other cable (`Fitting`),
and that cables close no loop (`Acyclic`). It depends on the views only, and each elementary change
keeps it under the conditions that the edits check for.
-/

namespace Patchbay

namespace Diagram

open Relation

variable {α : Type} {d d' : Diagram α}

/-! ## What the wiring must satisfy -/

/-- The cable is there and one of its ends is at the place. -/
def Touches (d : Diagram α) (c : CableId) (u : Terminal) : Prop :=
  ∃ s o, d.ends? c = some (s, o) ∧ (u = s ∨ o = some u)

/-- A magnet holds exactly the cables that end there, each once. -/
structure Linked (d : Diagram α) : Prop where
  end_magnet : ∀ {c u}, d.Touches c u → (d.magnet? u).isSome
  mem_cables : ∀ {u m}, d.magnet? u = some m → ∀ c, c ∈ m.cables ↔ d.Touches c u
  nodup : ∀ {u m}, d.magnet? u = some m → m.cables.Nodup

/-- Cables run from output magnets to input magnets, which have one cable at most, and the datatypes
of the two agree. -/
structure Fitting (d : Diagram α) : Prop where
  source_side : ∀ {c s o}, d.ends? c = some (s, o) → s.side = .output
  dest_side : ∀ {c s t}, d.ends? c = some (s, some t) → t.side = .input
  single : ∀ {u m}, d.magnet? u = some m → u.side = .input → m.cables.length ≤ 1
  accepts : ∀ {c s t m n}, d.ends? c = some (s, some t) → d.magnet? s = some m →
    d.magnet? t = some n → m.accepts n

/-- A cable runs from the one shape to the other. -/
def Feeds (d : Diagram α) (a b : ShapeId) : Prop :=
  ∃ c s t, d.ends? c = some (s, some t) ∧ s.shape = a ∧ t.shape = b

def Acyclic (d : Diagram α) : Prop := ∀ a, ¬ TransGen d.Feeds a a

/-- The cables agree with the magnets, fit, and close no loop. -/
structure Wired (d : Diagram α) : Prop extends Linked d, Fitting d where
  acyclic : d.Acyclic

/-! ## Ends of cables -/

theorem touches_source {c : CableId} {s : Terminal} {o : Option Terminal}
    (h : d.ends? c = some (s, o)) : d.Touches c s := ⟨s, o, h, .inl rfl⟩

theorem touches_dest {c : CableId} {s t : Terminal} (h : d.ends? c = some (s, some t)) :
    d.Touches c t := ⟨s, some t, h, .inr rfl⟩

theorem touches_iff {c : CableId} {s u : Terminal} {o : Option Terminal}
    (h : d.ends? c = some (s, o)) : d.Touches c u ↔ u = s ∨ o = some u := by
  refine ⟨?_, fun hu => ⟨s, o, h, hu⟩⟩
  rintro ⟨s', o', h', hu⟩
  rw [h] at h'
  cases h'
  exact hu

theorem touches_congr (he : ∀ c, d'.ends? c = d.ends? c) (c : CableId) (u : Terminal) :
    d'.Touches c u ↔ d.Touches c u := by
  simp only [Touches, he]

theorem feeds_congr (he : ∀ c, d'.ends? c = d.ends? c) (a b : ShapeId) :
    d'.Feeds a b ↔ d.Feeds a b := by
  simp only [Feeds, he]

theorem Linked.live (h : d.Linked) {c : CableId} {u : Terminal} (hc : d.Touches c u) :
    (d.body? u.shape).isSome := by
  obtain ⟨m, hm⟩ := Option.isSome_iff_exists.1 (h.end_magnet hc)
  exact isSome_body?_of_magnet? hm

theorem Linked.source (h : d.Linked) {c : CableId} {s : Terminal} {o : Option Terminal}
    (hc : d.ends? c = some (s, o)) : ∃ m, d.magnet? s = some m ∧ c ∈ m.cables := by
  obtain ⟨m, hm⟩ := Option.isSome_iff_exists.1 (h.end_magnet (touches_source hc))
  exact ⟨m, hm, (h.mem_cables hm c).2 (touches_source hc)⟩

theorem Linked.dest (h : d.Linked) {c : CableId} {s t : Terminal}
    (hc : d.ends? c = some (s, some t)) : ∃ m, d.magnet? t = some m ∧ c ∈ m.cables := by
  obtain ⟨m, hm⟩ := Option.isSome_iff_exists.1 (h.end_magnet (touches_dest hc))
  exact ⟨m, hm, (h.mem_cables hm c).2 (touches_dest hc)⟩

theorem Linked.feeds_live_left (h : d.Linked) {a b : ShapeId} (hab : d.Feeds a b) :
    (d.body? a).isSome := by
  obtain ⟨c, s, t, hc, rfl, -⟩ := hab
  exact h.live (touches_source hc)

theorem Linked.feeds_live_right (h : d.Linked) {a b : ShapeId} (hab : d.Feeds a b) :
    (d.body? b).isSome := by
  obtain ⟨c, s, t, hc, -, rfl⟩ := hab
  exact h.live (touches_dest hc)

/-- A cable at an input magnet has landed there. -/
theorem Wired.landed (h : d.Wired) {u : Terminal} {m : Magnet α} {c : CableId}
    (hm : d.magnet? u = some m) (hu : u.side = .input) (hc : c ∈ m.cables) :
    ∃ s, d.ends? c = some (s, some u) := by
  obtain ⟨s, o, hco, rfl | rfl⟩ := (h.mem_cables hm c).1 hc
  · rw [h.source_side hco] at hu
    cases hu
  · exact ⟨s, hco⟩

/-- A cable at an output magnet starts there. -/
theorem Wired.started (h : d.Wired) {u : Terminal} {m : Magnet α} {c : CableId}
    (hm : d.magnet? u = some m) (hu : u.side = .output) (hc : c ∈ m.cables) :
    ∃ o, d.ends? c = some (u, o) := by
  obtain ⟨s, o, hco, rfl | rfl⟩ := (h.mem_cables hm c).1 hc
  · exact ⟨o, hco⟩
  · rw [h.dest_side hco] at hu
    cases hu

/-- An input magnet holds no second cable. -/
theorem Fitting.eq_singleton (h : d.Fitting) {u : Terminal} {m : Magnet α} {c : CableId}
    (hm : d.magnet? u = some m) (hu : u.side = .input) (hc : c ∈ m.cables) : m.cables = [c] := by
  have hlen := h.single hm hu
  match hcs : m.cables with
  | [] => simp [hcs] at hc
  | [x] => simp_all
  | x :: y :: rest => simp [hcs] at hlen

/-- An input magnet with a cable is fed by it, and by nothing else. -/
theorem Wired.fed (h : d.Wired) {t : Terminal} {m : Magnet α} (hm : d.magnet? t = some m)
    (ht : t.side = .input) (hne : m.cables ≠ []) :
    ∃ c s, m.cables = [c] ∧ d.ends? c = some (s, some t) := by
  obtain ⟨c, hc⟩ := List.exists_mem_of_ne_nil _ hne
  obtain ⟨s, hs⟩ := h.landed hm ht hc
  exact ⟨c, s, h.eq_singleton hm ht hc, hs⟩

/-- An input magnet takes one cable only. -/
theorem Wired.eq_of_touches_input (h : d.Wired) {c x : CableId} {u : Terminal}
    (hc : d.Touches c u) (hx : d.Touches x u) (hu : u.side = .input) : x = c := by
  obtain ⟨m, hm⟩ := Option.isSome_iff_exists.1 (h.end_magnet hc)
  have hmc := (h.mem_cables hm c).2 hc
  have hmx := (h.mem_cables hm x).2 hx
  rw [h.eq_singleton hm hu hmc] at hmx
  exact List.mem_singleton.1 hmx

/-- A cable has one end on each side. -/
theorem Fitting.eq_of_touches (h : d.Fitting) {c : CableId} {u v : Terminal}
    (hu : d.Touches c u) (hv : d.Touches c v) (hside : u.side = v.side) : u = v := by
  obtain ⟨s, o, hc, hus⟩ := hu
  have hvs := (touches_iff hc).1 hv
  rcases hus with rfl | rfl <;> rcases hvs with rfl | hvs
  · rfl
  · subst hvs
    rw [h.source_side hc, h.dest_side hc] at hside
    cases hside
  · rw [h.source_side hc, h.dest_side hc] at hside
    cases hside
  · exact Option.some.inj hvs

/-! ## Loops -/

theorem Acyclic.mono (h : d.Acyclic) (hle : ∀ a b, d'.Feeds a b → d.Feeds a b) : d'.Acyclic :=
  fun a ha => h a (TransGen.mono hle a a ha)

theorem Acyclic.ne {a b : ShapeId} (h : d.Acyclic) (hab : d.Feeds a b) : a ≠ b := by
  rintro rfl
  exact h a (.single hab)

/-- A path that may use one more edge does without it or goes over its two ends. -/
theorem path_with_edge {β : Type} {r r' : β → β → Prop} {x y : β}
    (hle : ∀ a b, r' a b → r a b ∨ a = x ∧ b = y) {a b : β} (h : TransGen r' a b) :
    TransGen r a b ∨ ReflTransGen r a x ∧ ReflTransGen r y b := by
  induction h with
  | single hab =>
    rcases hle _ _ hab with h | ⟨rfl, rfl⟩
    · exact .inl (.single h)
    · exact .inr ⟨.refl, .refl⟩
  | tail _ hbc ih =>
    rcases hle _ _ hbc with h | ⟨rfl, rfl⟩
    · rcases ih with ih | ⟨hx, hy⟩
      · exact .inl (ih.tail h)
      · exact .inr ⟨hx, hy.tail h⟩
    · rcases ih with ih | ⟨hx, _⟩
      · exact .inr ⟨ih.to_reflTransGen, .refl⟩
      · exact .inr ⟨hx, .refl⟩

theorem Acyclic.add {x y : ShapeId} (h : d.Acyclic)
    (hle : ∀ a b, d'.Feeds a b → d.Feeds a b ∨ a = x ∧ b = y)
    (hxy : ¬ ReflTransGen d.Feeds y x) : d'.Acyclic := by
  intro a ha
  rcases path_with_edge hle ha with h' | ⟨hx, hy⟩
  · exact h a h'
  · exact hxy (hy.trans hx)

/-! ## Magnets without cables -/

def BareAt (d : Diagram α) (u : Terminal) : Prop := ∀ m, d.magnet? u = some m → m.cables = []

/-- Magnets without cables may come and go. -/
theorem Wired.of_frame (h : d.Wired) (he : ∀ c, d'.ends? c = d.ends? c)
    (hm : ∀ u, d'.magnet? u = d.magnet? u ∨ d.BareAt u ∧ d'.BareAt u) : d'.Wired := by
  -- A magnet that a cable ends at is the same in both diagrams.
  have keep : ∀ {u c}, d.Touches c u → d'.magnet? u = d.magnet? u := by
    intro u c hc
    rcases hm u with hs | ⟨hb, -⟩
    · exact hs
    · obtain ⟨m, hu⟩ := Option.isSome_iff_exists.1 (h.end_magnet hc)
      have hmem := (h.mem_cables hu c).2 hc
      rw [hb m hu] at hmem
      cases hmem
  have back : ∀ {u m}, d'.magnet? u = some m → d.magnet? u = some m ∨ m.cables = [] := by
    intro u m hu
    rcases hm u with hs | ⟨-, hb⟩
    · exact .inl (hs ▸ hu)
    · exact .inr (hb m hu)
  refine { end_magnet := ?_, mem_cables := ?_, nodup := ?_, source_side := ?_,
           dest_side := ?_, single := ?_, accepts := ?_, acyclic := ?_ }
  · intro c u hc
    have hc := (touches_congr he c u).1 hc
    rw [keep hc]
    exact h.end_magnet hc
  · intro u m hu c
    rw [touches_congr he]
    rcases back hu with hu' | hb
    · exact h.mem_cables hu' c
    · refine ⟨fun hc => by simp [hb] at hc, fun hc => ?_⟩
      rw [keep hc] at hu
      exact (h.mem_cables hu c).2 hc
  · intro u m hu
    rcases back hu with hu | hb
    · exact h.nodup hu
    · rw [hb]
      exact List.nodup_nil
  · intro c s o hc
    exact h.source_side (he c ▸ hc)
  · intro c s t hc
    exact h.dest_side (he c ▸ hc)
  · intro u m hu hside
    rcases back hu with hu | hb
    · exact h.single hu hside
    · simp [hb]
  · intro c s t m n hc hs ht
    rw [he] at hc
    rw [keep (touches_source hc)] at hs
    rw [keep (touches_dest hc)] at ht
    exact h.accepts hc hs ht
  · exact h.acyclic.mono fun a b => (feeds_congr he a b).1

theorem Alike.wired (ha : Alike d d') (h : d.Wired) : d'.Wired :=
  h.of_frame ha.ends fun u => .inl (ha.magnet u)

/-- A new shape comes without cables. -/
theorem Wired.placeShape (h : d.Wired) (s : Shape α) : (d.placeShape s).Wired := by
  refine h.of_frame (fun _ => rfl) fun u => ?_
  by_cases hu : u.shape = d.nextShape
  · right
    constructor
    · intro m hm
      rw [magnet?_eq_none_of_body? (hu ▸ body?_eq_none_iff.2 (shape?_nextShape d))] at hm
      cases hm
    · intro m hm
      rw [magnet?_placeShape, if_pos hu] at hm
      obtain ⟨n, -, rfl⟩ := Option.map_eq_some_iff.1 hm
      rfl
  · left
    rw [magnet?_placeShape, if_neg hu]

/-- A shape without cables may go. -/
theorem Wired.removeShape (h : d.Wired) {id : ShapeId}
    (hbare : ∀ u : Terminal, u.shape = id → d.BareAt u) : (d.removeShape id).Wired := by
  refine h.of_frame (ends?_removeShape d id) fun u => ?_
  by_cases hu : u.shape = id
  · refine .inr ⟨hbare u hu, fun m hm => ?_⟩
    rw [magnet?_removeShape, if_pos hu.symm] at hm
    cases hm
  · left
    rw [magnet?_removeShape, if_neg (Ne.symm hu)]

/-! ## Unplugging a cable -/

theorem Magnet.mem_unhook {m : Magnet α} {c id : CableId} :
    c ∈ (m.unhook id).cables ↔ c ∈ m.cables ∧ c ≠ id := by
  simp [Magnet.unhook]

theorem ends?_of_ends?_unplug {id c : CableId} {k : Cable α} {e : Terminal × Option Terminal}
    (hc : (d.unplug id k).ends? c = some e) : c ≠ id ∧ d.ends? c = some e := by
  rw [ends?_unplug] at hc
  split at hc
  · cases hc
  · exact ⟨Ne.symm ‹_›, hc⟩

theorem touches_unplug (d : Diagram α) (id : CableId) (k : Cable α) (c : CableId) (u : Terminal) :
    (d.unplug id k).Touches c u ↔ d.Touches c u ∧ c ≠ id := by
  simp only [Touches, ends?_unplug]
  by_cases h : id = c <;> simp [h, eq_comm]

theorem feeds_of_feeds_unplug {id : CableId} {k : Cable α} {a b : ShapeId}
    (h : (d.unplug id k).Feeds a b) : d.Feeds a b := by
  obtain ⟨c, s, t, hc, rfl, rfl⟩ := h
  exact ⟨c, s, t, (ends?_of_ends?_unplug hc).2, rfl, rfl⟩

/-- To unplug a cable is to take it off every magnet, because only its ends hold it. -/
theorem Linked.magnet?_unplug (h : d.Linked) {id : CableId} {k : Cable α}
    (hk : d.cable? id = some k) (u : Terminal) :
    (d.unplug id k).magnet? u = (d.magnet? u).map (·.unhook id) := by
  rw [Diagram.magnet?_unplug]
  split
  · rfl
  · rename_i hne
    cases hu : d.magnet? u with
    | none => rfl
    | some m =>
      have hid : id ∉ m.cables := by
        intro hid
        obtain ⟨s, o, hso, hend⟩ := (h.mem_cables hu id).1 hid
        rw [ends?_eq_some hk] at hso
        cases hso
        exact hne (Cable.mem_ends.2 hend)
      have hf : m.cables.filter (· ≠ id) = m.cables :=
        List.filter_eq_self.2 fun x hx => decide_eq_true fun hxc : x = id => hid (hxc ▸ hx)
      rw [Option.map_some, Magnet.unhook, hf]

theorem Wired.unplug (h : d.Wired) {id : CableId} {k : Cable α} (hk : d.cable? id = some k) :
    (d.unplug id k).Wired := by
  have back : ∀ {u m}, (d.unplug id k).magnet? u = some m →
      ∃ m', d.magnet? u = some m' ∧ m = m'.unhook id := by
    intro u m hu
    rw [h.magnet?_unplug hk] at hu
    obtain ⟨m', hm', rfl⟩ := Option.map_eq_some_iff.1 hu
    exact ⟨m', hm', rfl⟩
  refine { end_magnet := ?_, mem_cables := ?_, nodup := ?_, source_side := ?_,
           dest_side := ?_, single := ?_, accepts := ?_, acyclic := ?_ }
  · intro c u hc
    rw [h.magnet?_unplug hk, Option.isSome_map]
    exact h.end_magnet ((touches_unplug d id k c u).1 hc).1
  · intro u m hu c
    obtain ⟨m', hu', rfl⟩ := back hu
    rw [Magnet.mem_unhook, touches_unplug, h.mem_cables hu' c]
  · intro u m hu
    obtain ⟨m', hu', rfl⟩ := back hu
    exact (h.nodup hu').filter _
  · intro c s o hc
    exact h.source_side (ends?_of_ends?_unplug hc).2
  · intro c s t hc
    exact h.dest_side (ends?_of_ends?_unplug hc).2
  · intro u m hu hside
    obtain ⟨m', hu', rfl⟩ := back hu
    exact Nat.le_trans (List.length_filter_le _ _) (h.single hu' hside)
  · intro c s t m n hc hs ht
    obtain ⟨m', hs', rfl⟩ := back hs
    obtain ⟨n', ht', rfl⟩ := back ht
    exact (h.accepts (ends?_of_ends?_unplug hc).2 hs' ht' : m'.accepts n' = true)
  · exact h.acyclic.mono fun a b => feeds_of_feeds_unplug

/-! ## Hooking a cable -/

theorem Magnet.mem_hook {m : Magnet α} {c id : CableId} :
    c ∈ (m.hook id).cables ↔ c ∈ m.cables ∨ c = id := by
  simp [Magnet.hook]

theorem Magnet.accepts_iff {m n : Magnet α} :
    m.accepts n = true ↔ m.datatype = n.datatype ∨ m.datatype = none ∨ n.datatype = none := by
  unfold Magnet.accepts
  cases m.datatype <;> cases n.datatype <;> simp

theorem Magnet.accepts_congr {m m' n n' : Magnet α} (hm : m.datatype = m'.datatype)
    (hn : n.datatype = n'.datatype) : m.accepts n = m'.accepts n' := by
  simp only [Magnet.accepts, hm, hn]

/-- `d'` is `d` with a cable hooked to one more magnet. -/
def Hooks (d d' : Diagram α) (id : CableId) (t : Terminal) : Prop :=
  ∀ u, d'.magnet? u = if t = u then (d.magnet? u).map (·.hook id) else d.magnet? u

theorem Hooks.back {id : CableId} {t u : Terminal} {m : Magnet α} (h : Hooks d d' id t)
    (hu : d'.magnet? u = some m) :
    ∃ m', d.magnet? u = some m' ∧ (t = u ∧ m = m'.hook id ∨ t ≠ u ∧ m = m') := by
  rw [h u] at hu
  split at hu
  · obtain ⟨m', hm', rfl⟩ := Option.map_eq_some_iff.1 hu
    exact ⟨m', hm', .inl ⟨‹_›, rfl⟩⟩
  · exact ⟨m, hu, .inr ⟨‹_›, rfl⟩⟩

theorem Hooks.datatype {id : CableId} {t u : Terminal} {m : Magnet α} (h : Hooks d d' id t)
    (hu : d'.magnet? u = some m) : ∃ m', d.magnet? u = some m' ∧ m.datatype = m'.datatype := by
  obtain ⟨m', hm', ⟨-, rfl⟩ | ⟨-, rfl⟩⟩ := h.back hu
  · exact ⟨m', hm', rfl⟩
  · exact ⟨m, hm', rfl⟩

/-- A cable gets one more end, and the magnet there is told. -/
theorem Linked.hook (h : d.Linked) {id : CableId} {t : Terminal} (hm : Hooks d d' id t)
    (ht : ∀ c u, d'.Touches c u ↔ d.Touches c u ∨ c = id ∧ u = t)
    (hfree : ¬ d.Touches id t) (hlive : (d.magnet? t).isSome) : d'.Linked := by
  refine { end_magnet := ?_, mem_cables := ?_, nodup := ?_ }
  · intro c u hc
    have hold : (d.magnet? u).isSome := by
      rcases (ht c u).1 hc with hc | ⟨-, rfl⟩
      · exact h.end_magnet hc
      · exact hlive
    rw [hm u]
    split
    · rwa [Option.isSome_map]
    · exact hold
  · intro u m hu c
    obtain ⟨m', hu', ⟨rfl, rfl⟩ | ⟨hne, rfl⟩⟩ := hm.back hu
    · rw [Magnet.mem_hook, ht, h.mem_cables hu' c]
      simp
    · rw [ht, h.mem_cables hu' c]
      simp [Ne.symm hne]
  · intro u m hu
    obtain ⟨m', hu', ⟨rfl, rfl⟩ | ⟨-, rfl⟩⟩ := hm.back hu
    · refine List.nodup_append.2 ⟨h.nodup hu', by simp, ?_⟩
      intro c hc x hx hcx
      rw [hcx, List.mem_singleton.1 hx] at hc
      exact hfree ((h.mem_cables hu' id).1 hc)
    · exact h.nodup hu'

theorem not_touches_nextCable (d : Diagram α) (u : Terminal) : ¬ d.Touches d.nextCable u := by
  rintro ⟨s, o, h, -⟩
  rw [ends?_nextCable] at h
  cases h

theorem ends?_of_ends?_start {s : Terminal} {p : Point α} {c : CableId}
    {e : Terminal × Option Terminal} (hc : (d.start s p).ends? c = some e) :
    e = (s, none) ∨ d.ends? c = some e := by
  rw [ends?_start] at hc
  split at hc
  · exact .inl (Option.some.inj hc).symm
  · exact .inr hc

theorem touches_start (d : Diagram α) (s : Terminal) (p : Point α) (c : CableId) (u : Terminal) :
    (d.start s p).Touches c u ↔ d.Touches c u ∨ c = d.nextCable ∧ u = s := by
  by_cases hc : c = d.nextCable
  · subst hc
    rw [touches_iff (by rw [ends?_start, if_pos rfl])]
    simp [not_touches_nextCable]
  · simp [Touches, ends?_start, hc]

theorem feeds_of_feeds_start {s : Terminal} {p : Point α} {a b : ShapeId}
    (h : (d.start s p).Feeds a b) : d.Feeds a b := by
  obtain ⟨c, s', t, hc, rfl, rfl⟩ := h
  rcases ends?_of_ends?_start hc with he | hc
  · cases he
  · exact ⟨c, s', t, hc, rfl, rfl⟩

/-- A loose cable is no way from one shape to another. -/
theorem feeds_start (d : Diagram α) (s : Terminal) (p : Point α) (a b : ShapeId) :
    (d.start s p).Feeds a b ↔ d.Feeds a b := by
  refine ⟨feeds_of_feeds_start, ?_⟩
  rintro ⟨c, u, v, hc, hu, hv⟩
  refine ⟨c, u, v, ?_, hu, hv⟩
  rw [ends?_start, if_neg, hc]
  rintro rfl
  rw [ends?_nextCable] at hc
  cases hc

/-- A loose cable may be started at any output magnet. -/
theorem Wired.start (h : d.Wired) {s : Terminal} (p : Point α)
    (hlive : (d.magnet? s).isSome) (hside : s.side = .output) : (d.start s p).Wired := by
  have hooks : Hooks d (d.start s p) d.nextCable s := magnet?_start d s p
  refine { toLinked := ?_, source_side := ?_, dest_side := ?_, single := ?_, accepts := ?_,
           acyclic := ?_ }
  · exact h.hook hooks (touches_start d s p) (not_touches_nextCable d s) hlive
  · intro c s' o hc
    rcases ends?_of_ends?_start hc with he | hc
    · cases he
      exact hside
    · exact h.source_side hc
  · intro c s' t hc
    rcases ends?_of_ends?_start hc with he | hc
    · cases he
    · exact h.dest_side hc
  · intro u m hu hin
    obtain ⟨m', hu', ⟨rfl, -⟩ | ⟨-, rfl⟩⟩ := hooks.back hu
    · rw [hside] at hin
      cases hin
    · exact h.single hu' hin
  · intro c s' t m n hc hs ht
    rcases ends?_of_ends?_start hc with he | hc
    · cases he
    · obtain ⟨m', hs', hm⟩ := hooks.datatype hs
      obtain ⟨n', ht', hn⟩ := hooks.datatype ht
      rw [Magnet.accepts_congr hm hn]
      exact h.accepts hc hs' ht'
  · exact h.acyclic.mono fun a b => feeds_of_feeds_start

/-- A loose cable may land on a free input magnet that accepts it, from which it closes no loop. -/
structure Landable (d : Diagram α) (s t : Terminal) : Prop where
  side : t.side = .input
  accepts : ∃ m n, d.magnet? s = some m ∧ d.magnet? t = some n ∧ n.cables = [] ∧ m.accepts n
  no_loop : ¬ ReflTransGen d.Feeds t.shape s.shape

variable [Scalar α]

theorem ends?_of_ends?_land {id c : CableId} {t : Terminal} {e : Terminal × Option Terminal}
    (hc : (d.land id t).ends? c = some e) :
    c = id ∧ (∃ o, d.ends? id = some (e.1, o)) ∧ e.2 = some t ∨ d.ends? c = some e := by
  rw [ends?_land] at hc
  split at hc
  · rename_i h
    subst h
    obtain ⟨⟨s, o⟩, he, rfl⟩ := Option.map_eq_some_iff.1 hc
    exact .inl ⟨rfl, ⟨o, he⟩, rfl⟩
  · exact .inr hc

theorem touches_land {id : CableId} {s : Terminal} (hid : d.ends? id = some (s, none))
    (t : Terminal) (c : CableId) (u : Terminal) :
    (d.land id t).Touches c u ↔ d.Touches c u ∨ c = id ∧ u = t := by
  by_cases hc : id = c
  · subst hc
    rw [touches_iff hid, touches_iff (by rw [ends?_land, if_pos rfl, hid, Option.map_some])]
    simp [eq_comm]
  · simp [Touches, ends?_land, hc, Ne.symm hc]

theorem feeds_of_feeds_land {id : CableId} {s t : Terminal} (hid : d.ends? id = some (s, none))
    {a b : ShapeId} (h : (d.land id t).Feeds a b) :
    d.Feeds a b ∨ a = s.shape ∧ b = t.shape := by
  obtain ⟨c, s', t', hc, rfl, rfl⟩ := h
  rcases ends?_of_ends?_land hc with ⟨rfl, ⟨o, ho⟩, ht⟩ | hc
  · rw [hid] at ho
    cases ho
    cases ht
    exact .inr ⟨rfl, rfl⟩
  · exact .inl ⟨c, s', t', hc, rfl, rfl⟩

theorem Wired.land (h : d.Wired) {id : CableId} {s t : Terminal}
    (hid : d.ends? id = some (s, none)) (hl : d.Landable s t) : (d.land id t).Wired := by
  have hooks : Hooks d (d.land id t) id t := magnet?_land d id t
  obtain ⟨m₀, n₀, hs₀, ht₀, hempty, haccepts⟩ := hl.accepts
  refine { toLinked := ?_, source_side := ?_, dest_side := ?_, single := ?_, accepts := ?_,
           acyclic := ?_ }
  · refine h.hook hooks (touches_land hid t) (fun hc => ?_) (by rw [ht₀]; rfl)
    have := (h.mem_cables ht₀ id).2 hc
    rw [hempty] at this
    cases this
  · intro c s' o hc
    rcases ends?_of_ends?_land hc with ⟨-, ⟨o, ho⟩, -⟩ | hc
    · exact h.source_side ho
    · exact h.source_side hc
  · intro c s' t' hc
    rcases ends?_of_ends?_land hc with ⟨-, -, ht⟩ | hc
    · cases ht
      exact hl.side
    · exact h.dest_side hc
  · intro u m hu hin
    obtain ⟨m', hu', ⟨rfl, rfl⟩ | ⟨-, rfl⟩⟩ := hooks.back hu
    · rw [ht₀] at hu'
      cases hu'
      simp [Magnet.hook, hempty]
    · exact h.single hu' hin
  · intro c s' t' m n hc hs ht
    obtain ⟨m', hs', hm⟩ := hooks.datatype hs
    obtain ⟨n', ht', hn⟩ := hooks.datatype ht
    rw [Magnet.accepts_congr hm hn]
    rcases ends?_of_ends?_land hc with ⟨-, ⟨o, ho⟩, hdest⟩ | hc
    · cases hdest
      rw [hid] at ho
      cases ho
      rw [hs₀] at hs'
      rw [ht₀] at ht'
      cases hs'
      cases ht'
      exact haccepts
    · exact h.accepts hc hs' ht'
  · exact h.acyclic.add (fun a b => feeds_of_feeds_land hid) hl.no_loop

/-- Two magnets may be joined when a cable at the one may land on the other. -/
theorem Wired.join (h : d.Wired) {s t : Terminal} (hside : s.side = .output)
    (hl : d.Landable s t) : (d.join s t).Wired := by
  obtain ⟨m, n, hs, ht, hempty, haccepts⟩ := hl.accepts
  have hne : s ≠ t := by
    rintro rfl
    exact hl.no_loop .refl
  rw [join_eq_land_start d s t Point.origin]
  refine (h.start Point.origin (by rw [hs]; rfl) hside).land (s := s) ?_ ⟨hl.side, ?_, ?_⟩
  · rw [ends?_start, if_pos rfl]
  · refine ⟨m.hook d.nextCable, n, ?_, ?_, hempty, haccepts⟩
    · rw [magnet?_start, if_pos rfl, hs, Option.map_some]
    · rw [magnet?_start, if_neg hne, ht]
  · intro hpath
    exact hl.no_loop (ReflTransGen.mono (fun a b => feeds_of_feeds_start) _ _ hpath)

theorem ends?_join (d : Diagram α) (s t : Terminal) (c : CableId) :
    (d.join s t).ends? c = if c = d.nextCable then some (s, some t) else d.ends? c := by
  rw [join_eq_land_start d s t Point.origin, ends?_land, ends?_start]
  by_cases hc : c = d.nextCable
  · simp [hc]
  · simp [hc, Ne.symm hc]

theorem touches_join (d : Diagram α) (s t : Terminal) (c : CableId) (u : Terminal) :
    (d.join s t).Touches c u ↔ d.Touches c u ∨ c = d.nextCable ∧ (u = s ∨ u = t) := by
  have hid : (d.start s Point.origin).ends? d.nextCable = some (s, none) := by
    rw [ends?_start, if_pos rfl]
  rw [join_eq_land_start d s t Point.origin, touches_land hid, touches_start, or_assoc,
    ← and_or_left]

theorem feeds_of_feeds_join {s t : Terminal} {a b : ShapeId} (h : (d.join s t).Feeds a b) :
    d.Feeds a b ∨ a = s.shape ∧ b = t.shape := by
  have hid : (d.start s Point.origin).ends? d.nextCable = some (s, none) := by
    rw [ends?_start, if_pos rfl]
  rw [join_eq_land_start d s t Point.origin] at h
  exact (feeds_of_feeds_land hid h).imp_left feeds_of_feeds_start

theorem body?_join (d : Diagram α) (s t : Terminal) (i : ShapeId) :
    (d.join s t).body? i = d.body? i := by
  rw [join_eq_land_start d s t Point.origin, body?_land, body?_start]

end Diagram

end Patchbay
