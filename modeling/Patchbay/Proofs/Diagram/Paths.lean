import Patchbay.Proofs.Diagram.Outcomes
import Patchbay.Proofs.Diagram.Wiring

/-!
# Paths along cables

In a wired diagram the search for a shape finds exactly the shapes downstream (`reaches_iff`):
what the search has looked at is closed under cables, up to the stack, so a path to the target
crosses the stack. It follows that two magnets may be joined just when a cable between them would
be wired well (`joinFault?_eq_none_iff`).
-/

namespace Patchbay

namespace Diagram

open Relation

variable {α : Type} {d : Diagram α}

/-! ## Successors -/

theorem nodup_eraseDups (ids : List ShapeId) : ids.eraseDups.Nodup := by
  match ids with
  | [] => exact List.nodup_nil
  | id :: ids =>
    rw [List.eraseDups_cons, List.nodup_cons]
    refine ⟨fun hid => ?_, nodup_eraseDups _⟩
    simp [List.mem_eraseDups] at hid
termination_by ids.length
decreasing_by exact Nat.lt_succ_of_le (List.length_filter_le _ _)

theorem mem_successors_iff (h : d.Wired) {a b : ShapeId} : b ∈ d.successors a ↔ d.Feeds a b := by
  unfold successors
  constructor
  · intro hb
    cases hs : d.shape? a with
    | none => simp [hs] at hb
    | some s =>
      simp only [hs, List.mem_eraseDups, List.mem_filterMap, List.mem_flatMap] at hb
      obtain ⟨c, ⟨m, hm, hc⟩, hcb⟩ := hb
      obtain ⟨i, hi⟩ := List.mem_iff_getElem?.1 hm
      obtain ⟨k, hk, hkb⟩ := Option.bind_eq_some_iff.1 hcb
      obtain ⟨t, ht, htb⟩ := Option.bind_eq_some_iff.1 hkb
      have hmag : d.magnet? ⟨a, .output, i⟩ = some m := by
        rw [magnet?_of_shape? hs]
        exact hi
      obtain ⟨o, ho⟩ := h.started hmag rfl hc
      rw [ends?_eq_some hk] at ho
      have hsource : k.source = ⟨a, .output, i⟩ := (Prod.mk.inj (Option.some.inj ho)).1
      exact ⟨c, k.source, t, by rw [ends?_eq_some hk, ht], by rw [hsource], Option.some.inj htb⟩
  · rintro ⟨c, s, t, hc, rfl, rfl⟩
    obtain ⟨m, hm, hmem⟩ := h.source hc
    obtain ⟨sh, hsh, hi⟩ := Option.bind_eq_some_iff.1 hm
    obtain ⟨k, hk, rfl, hkd⟩ := exists_cable_of_ends? hc
    have hout : (sh.magnets k.source.side)[k.source.index]? = sh.outputs[k.source.index]? := by
      rw [h.source_side hc]
      rfl
    simp only [hsh, List.mem_eraseDups, List.mem_filterMap, List.mem_flatMap]
    refine ⟨c, ⟨m, List.mem_of_getElem? (hout ▸ hi), hmem⟩, ?_⟩
    simp [hk, hkd]

theorem nodup_successors (d : Diagram α) (a : ShapeId) : (d.successors a).Nodup := by
  unfold successors
  split
  · exact List.nodup_nil
  · exact nodup_eraseDups _

/-! ## The search -/

/-- What has been looked at is not the target, and its successors have been looked at or stand on
the stack. -/
def Explored (d : Diagram α) (target : ShapeId) (seen stack : List ShapeId) : Prop :=
  ∀ x ∈ seen, x ≠ target ∧ ∀ y, d.Feeds x y → y ∈ seen ∨ y ∈ stack

/-- Every path to the target from what has been looked at crosses the stack. -/
theorem Explored.crosses {target : ShapeId} {seen stack : List ShapeId}
    (h : d.Explored target seen stack) {x : ShapeId} (hx : x ∈ seen)
    (hpath : ReflTransGen d.Feeds x target) :
    ∃ y ∈ stack, ReflTransGen d.Feeds y target := by
  induction hpath using ReflTransGen.head_induction_on with
  | refl => exact absurd rfl (h _ hx).1
  | head hxz hz ih =>
    rcases (h _ hx).2 _ hxz with hseen | hstack
    · exact ih hseen
    · exact ⟨_, hstack, hz⟩

/-- A shape can be skipped that has been looked at, or that is not there: no path is lost. -/
theorem Explored.skip (h : d.Wired) {target current : ShapeId} {seen rest : List ShapeId}
    (hex : d.Explored target seen (current :: rest)) (hne : current ≠ target)
    (hskip : current ∈ seen ∨ (d.shape? current).isNone) :
    d.Explored target seen rest ∧
      ((∃ x ∈ current :: rest, ReflTransGen d.Feeds x target) ↔
        ∃ x ∈ rest, ReflTransGen d.Feeds x target) := by
  -- no cable ends at a shape that is not there
  have hgone : (d.shape? current).isNone → ¬ (d.body? current).isSome := by
    intro hnone hlive
    rw [isSome_body?, Option.isSome_iff_ne_none] at hlive
    exact hlive (Option.isNone_iff_eq_none.1 hnone)
  have hex' : d.Explored target seen rest := by
    intro x hx
    refine ⟨(hex x hx).1, fun y hxy => ?_⟩
    rcases (hex x hx).2 y hxy with hy | hy
    · exact .inl hy
    · rcases List.mem_cons.1 hy with rfl | hy
      · rcases hskip with hseen | hnone
        · exact .inl hseen
        · exact absurd (h.feeds_live_right hxy) (hgone hnone)
      · exact .inr hy
  refine ⟨hex', ?_, fun ⟨x, hx, hpath⟩ => ⟨x, List.mem_cons_of_mem _ hx, hpath⟩⟩
  rintro ⟨x, hx, hpath⟩
  rcases List.mem_cons.1 hx with rfl | hx
  · rcases hskip with hseen | hnone
    · exact hex'.crosses hseen hpath
    · rcases ReflTransGen.cases_head hpath with rfl | ⟨y, hxy, -⟩
      · exact absurd rfl hne
      · exact absurd (h.feeds_live_left hxy) (hgone hnone)
  · exact ⟨x, hx, hpath⟩

/-- A shape has been looked at when its successors stand on the stack. -/
theorem Explored.look (h : d.Wired) {target current : ShapeId} {seen rest next : List ShapeId}
    (hex : d.Explored target seen (current :: rest)) (hne : current ≠ target)
    (hnext : ∀ x, x ∈ next ↔ x ∈ d.successors current ∨ x ∈ rest) :
    d.Explored target (current :: seen) next ∧
      ((∃ x ∈ current :: rest, ReflTransGen d.Feeds x target) ↔
        ∃ x ∈ next, ReflTransGen d.Feeds x target) := by
  have hex' : d.Explored target (current :: seen) next := by
    intro x hx
    rcases List.mem_cons.1 hx with rfl | hx
    · refine ⟨hne, fun y hxy => .inr ?_⟩
      exact (hnext y).2 (.inl ((mem_successors_iff h).2 hxy))
    · refine ⟨(hex x hx).1, fun y hxy => ?_⟩
      rcases (hex x hx).2 y hxy with hy | hy
      · exact .inl (List.mem_cons_of_mem _ hy)
      · rcases List.mem_cons.1 hy with rfl | hy
        · exact .inl List.mem_cons_self
        · exact .inr ((hnext y).2 (.inr hy))
  refine ⟨hex', ?_, ?_⟩
  · rintro ⟨x, hx, hpath⟩
    rcases List.mem_cons.1 hx with rfl | hx
    · exact hex'.crosses List.mem_cons_self hpath
    · exact ⟨x, (hnext x).2 (.inr hx), hpath⟩
  · rintro ⟨x, hx, hpath⟩
    rcases (hnext x).1 hx with hx | hx
    · exact ⟨current, List.mem_cons_self, .head ((mem_successors_iff h).1 hx) hpath⟩
    · exact ⟨x, List.mem_cons_of_mem _ hx, hpath⟩

/-- The target is found just when a path leads to it from the stack. -/
theorem search_iff (h : d.Wired) {target : ShapeId} {seen stack : List ShapeId}
    (hex : d.Explored target seen stack) :
    d.search target seen stack = true ↔ ∃ x ∈ stack, ReflTransGen d.Feeds x target := by
  induction seen, stack using search.induct d target with
  | case1 seen => simp [search]
  | case2 seen rest =>
    rw [search, if_pos rfl]
    exact ⟨fun _ => ⟨target, List.mem_cons_self, .refl⟩, fun _ => rfl⟩
  | case3 seen current rest hne hskip ih =>
    obtain ⟨hex', hpaths⟩ := hex.skip h hne hskip
    rw [search, if_neg hne, dif_pos hskip, ih hex', hpaths]
  | case4 seen current rest hne hnew ih =>
    obtain ⟨hex', hpaths⟩ := hex.look h hne fun x => List.mem_append
    rw [search, if_neg hne, dif_neg hnew, ih hex', hpaths]

/-- The search finds what is downstream, and nothing else. -/
theorem reaches_iff (h : d.Wired) {a b : ShapeId} :
    d.reaches a b = true ↔ ReflTransGen d.Feeds a b := by
  have hex : d.Explored b [] [a] := fun x hx => absurd hx List.not_mem_nil
  rw [reaches, search_iff h hex]
  simp

/-- From a shape that no cable leaves, only the shape itself is found. -/
theorem reaches_of_successors_eq_nil {a b : ShapeId} (hne : a ≠ b) (hs : d.successors a = []) :
    d.reaches a b = false := by
  rw [reaches, search, if_neg hne]
  split
  · rw [search]
  · rw [hs, List.nil_append, search]

end Diagram

/-! ## Joining -/

namespace Edit

open Diagram Relation

variable {α : Type} {d : Diagram α}

/-- No objection to joining two magnets is left when a cable may land there. -/
theorem joinFault?_eq_none_iff (h : d.Wired) {s t : Terminal} :
    joinFault? d s t = none ↔ s.side = .output ∧ d.Landable s t := by
  unfold joinFault?
  by_cases hside : s.side ≠ .output ∨ t.side ≠ .input
  · rw [if_pos hside]
    refine ⟨fun hf => (by cases hf), fun ⟨hs, hl⟩ => ?_⟩
    rcases hside with hn | hn
    · exact absurd hs hn
    · exact absurd hl.side hn
  rw [if_neg hside]
  obtain ⟨hs, ht⟩ : s.side = .output ∧ t.side = .input := by
    simpa only [not_or, Decidable.not_not] using hside
  cases hm : d.magnet? s with
  | none => simpa [hs] using fun hl : d.Landable s t => by simpa [hm] using hl.accepts
  | some m =>
    cases hn : d.magnet? t with
    | none => simpa [hs] using fun hl : d.Landable s t => by simpa [hn] using hl.accepts
    | some n =>
      have hloop : ReflTransGen d.Feeds t.shape s.shape ↔
          s.shape = t.shape ∨ d.reaches t.shape s.shape = true := by
        rw [reaches_iff h]
        exact ⟨.inr, fun hl => hl.elim (fun he => he ▸ .refl) id⟩
      have hland : d.Landable s t ↔ n.cables = [] ∧ m.accepts n = true ∧
          ¬ (s.shape = t.shape ∨ d.reaches t.shape s.shape = true) := by
        rw [← hloop]
        constructor
        · rintro ⟨-, ⟨m', n', hm', hn', hempty, haccepts⟩, hno⟩
          cases hm.symm.trans hm'
          cases hn.symm.trans hn'
          exact ⟨hempty, haccepts, hno⟩
        · rintro ⟨hempty, haccepts, hno⟩
          exact ⟨ht, ⟨m, n, hm, hn, hempty, haccepts⟩, hno⟩
      rw [hland]
      simp only [hs, true_and, Magnet.isConnected, ← List.isEmpty_iff]
      by_cases hempty : n.cables.isEmpty <;> by_cases haccepts : m.accepts n <;>
        simp [hempty, haccepts]

/-- A free magnet that fits may be joined if no cable leaves its shape. -/
theorem joinFault?_of_successors_eq_nil {s t : Terminal} {m n : Magnet α}
    (hs : s.side = .output) (ht : t.side = .input) (hm : d.magnet? s = some m)
    (hn : d.magnet? t = some n) (hempty : n.cables = []) (haccepts : m.accepts n = true)
    (hne : s.shape ≠ t.shape) (hnil : d.successors t.shape = []) : joinFault? d s t = none := by
  have hreaches := reaches_of_successors_eq_nil hne.symm hnil
  simp [joinFault?, hs, ht, hm, hn, Magnet.isConnected, hempty, haccepts, hne, hreaches]

/-- A cable to a free magnet that fits is laid if no cable leaves the shape there. -/
theorem run_connect_of_successors_eq_nil [Scalar α] {s t : Terminal} {m n : Magnet α}
    (hs : s.side = .output) (ht : t.side = .input) (hm : d.magnet? s = some m)
    (hn : d.magnet? t = some n) (hempty : n.cables = []) (haccepts : m.accepts n = true)
    (hne : s.shape ≠ t.shape) (hnil : d.successors t.shape = []) :
    (connect s t).run d = (.ok d.nextCable, d.join s t) := by
  have hfault := joinFault?_of_successors_eq_nil hs ht hm hn hempty haccepts hne hnil
  rw [run_connect, hfault]

end Edit

end Patchbay
