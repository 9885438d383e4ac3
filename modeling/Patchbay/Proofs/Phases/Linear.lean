import Mathlib.Data.List.Pairwise
import Patchbay.Proofs.Pairing
import Patchbay.Proofs.Phases

/-!
# Orders that the cables allow

Steps that run one by one may run in any order that puts each of them after those upstream of it
(`Linearizes`). The phases, one after the other, are such an order. It is the only one just when no
phase is shared (`isAmbiguous_eq_false_iff`): if each depth has one step, that step is fed by the
one of the depth before, so any two steps are upstream of one another in one direction; and two
neighbours in a shared phase can change places.
-/

namespace Patchbay

/-! ## Pairs in a list -/

section Pairs

variable {β : Type} {l : List β} {a b : β}

theorem not_pair_sublist_swap (h : l.Nodup) (hab : [a, b].Sublist l) : ¬ [b, a].Sublist l := by
  intro hba
  obtain ⟨i, hi⟩ := List.mem_iff_getElem?.1 (hab.subset (List.mem_cons_self : a ∈ [a, b]))
  obtain ⟨j, hj⟩ := List.mem_iff_getElem?.1 (hba.subset (List.mem_cons_self : b ∈ [b, a]))
  have hij := lt_of_pair_sublist h hab hi hj
  have hji := lt_of_pair_sublist h hba hj hi
  omega

/-- One of two elements of a list comes first. -/
theorem pair_sublist_or (ha : a ∈ l) (hb : b ∈ l) (hne : a ≠ b) :
    [a, b].Sublist l ∨ [b, a].Sublist l := by
  have hpairs : l.Pairwise fun x y => [x, y].Sublist l ∨ [y, x].Sublist l := by
    rw [List.pairwise_iff_forall_sublist]
    exact fun hxy => .inl hxy
  have : Std.Symm fun x y => [x, y].Sublist l ∨ [y, x].Sublist l := ⟨fun _ _ => Or.symm⟩
  exact hpairs.forall ha hb hne

/-- Neighbours that may stand either way can change places. -/
theorem pairwise_swap {R : β → β → Prop} {front back : List β}
    (h : (front ++ a :: b :: back).Pairwise R) (hba : R b a) :
    (front ++ b :: a :: back).Pairwise R := by
  simp only [List.pairwise_append, List.pairwise_cons, List.mem_cons, forall_eq_or_imp] at h ⊢
  obtain ⟨hfront, ⟨⟨-, ha⟩, hb, hback⟩, hcross⟩ := h
  refine ⟨hfront, ⟨⟨hba, hb⟩, ha, hback⟩, fun x hx => ?_⟩
  obtain ⟨hxa, hxb, hxback⟩ := hcross x hx
  exact ⟨hxb, hxa, hxback⟩

end Pairs

namespace Phases

open Diagram Relation

variable {α : Type} {d : Diagram α} {p : Phases} {a b : ShapeId} {l l' : List ShapeId}

/-! ## Orders of the steps -/

/-- The list has each step once, after all steps upstream of it. -/
structure Linearizes (d : Diagram α) (l : List ShapeId) : Prop where
  perm : l.Perm d.steps
  upstream : ∀ a ∈ d.steps, ∀ b ∈ d.steps, TransGen d.Feeds a b → [a, b].Sublist l

theorem Linearizes.pairwise (h : Linearizes d l) (hnodup : d.steps.Nodup) :
    l.Pairwise fun a b => ¬ TransGen d.Feeds b a := by
  rw [List.pairwise_iff_forall_sublist]
  intro a b hab hback
  have ha : a ∈ d.steps := h.perm.subset (hab.subset (by simp))
  have hb : b ∈ d.steps := h.perm.subset (hab.subset (by simp))
  exact not_pair_sublist_swap (h.perm.nodup_iff.2 hnodup) hab (h.upstream b hb a ha hback)

theorem linearizes_of_pairwise (hacyclic : d.Acyclic) (hperm : l.Perm d.steps)
    (h : l.Pairwise fun a b => ¬ TransGen d.Feeds b a) : Linearizes d l where
  perm := hperm
  upstream a ha b hb hab := by
    have hne : a ≠ b := by
      rintro rfl
      exact hacyclic a hab
    rcases pair_sublist_or (hperm.mem_iff.2 ha) (hperm.mem_iff.2 hb) hne with hsub | hsub
    · exact hsub
    · exact absurd hab (List.pairwise_iff_forall_sublist.1 h hsub)

/-- If of any two steps one is upstream of the other, there are no two orders. -/
theorem Linearizes.unique (h : Linearizes d l) (h' : Linearizes d l') (hnodup : d.steps.Nodup)
    (htotal : ∀ a ∈ d.steps, ∀ b ∈ d.steps, a ≠ b → TransGen d.Feeds a b ∨ TransGen d.Feeds b a) :
    l = l' := by
  refine List.Perm.eq_of_pairwise ?_ (h.pairwise hnodup) (h'.pairwise hnodup)
    (h.perm.trans h'.perm.symm)
  intro a b ha hb hab hba
  by_contra hne
  rcases htotal a (h.perm.subset ha) b (h'.perm.subset hb) hne with hpath | hpath
  · exact hba hpath
  · exact hab hpath

/-! ## Phases that are not shared -/

theorem isAmbiguous_eq_false : p.isAmbiguous = false ↔ ∀ layer ∈ p.layers, layer.length ≤ 1 := by
  simp [isAmbiguous]

/-- If no phase is shared, no two steps have the same depth. -/
theorem ByDepth.depth_injective (h : ByDepth d p) (hp : p.isAmbiguous = false) {n : Nat}
    (ha : a ∈ d.steps) (hb : b ∈ d.steps) (han : d.Depth a n) (hbn : d.Depth b n) : a = b := by
  have hphase : ∀ {x}, x ∈ d.steps → d.Depth x n →
      ∃ layer, p.layers[n]? = some layer ∧ x ∈ layer := by
    intro x hx hn
    have hx := h.phaseOf?_eq_some_iff.2 ⟨hx, hn⟩
    obtain ⟨hlt, hmem, -⟩ := List.findIdx?_eq_some_iff_getElem.1 hx
    exact ⟨p.layers[n], List.getElem?_eq_getElem hlt, by simpa using hmem⟩
  obtain ⟨layer, hlayer, hmem⟩ := hphase ha han
  obtain ⟨layer', hlayer', hmem'⟩ := hphase hb hbn
  cases hlayer.symm.trans hlayer'
  have hle := isAmbiguous_eq_false.1 hp layer (List.mem_of_getElem? hlayer)
  obtain ⟨x, rfl⟩ := List.length_eq_one_iff.1
    (Nat.le_antisymm hle (List.length_pos_of_mem hmem))
  rw [List.mem_singleton.1 hmem, List.mem_singleton.1 hmem']

/-- If no phase is shared, a step is downstream of all steps that are less deep. -/
theorem ByDepth.transGen_of_lt (h : ByDepth d p) (hp : p.isAmbiguous = false) {m n : Nat}
    (ha : a ∈ d.steps) (hb : b ∈ d.steps) (ham : d.Depth a m) (hbn : d.Depth b n) (hlt : m < n) :
    TransGen d.Feeds a b := by
  induction n generalizing b with
  | zero => exact absurd hlt (Nat.not_lt_zero m)
  | succ k ih =>
    have hall : ∀ x, d.StepFeeds x b → ∃ j, d.Depth x j := by
      intro x hx
      obtain ⟨j, -, hj⟩ := h.exists_depth hx.1
      exact ⟨j, hj⟩
    obtain ⟨⟨x, hxb, hxk⟩, -⟩ := (hbn.succ_iff hall).1 rfl
    rcases Nat.lt_succ_iff_lt_or_eq.1 hlt with hmk | rfl
    · exact (ih hxb.1 hxk hmk).tail hxb.2.2
    · obtain rfl : a = x := h.depth_injective hp ha hxb.1 ham hxk
      exact .single hxb.2.2

theorem ByDepth.transGen_or (h : ByDepth d p) (hp : p.isAmbiguous = false) (ha : a ∈ d.steps)
    (hb : b ∈ d.steps) (hne : a ≠ b) : TransGen d.Feeds a b ∨ TransGen d.Feeds b a := by
  obtain ⟨m, -, hm⟩ := h.exists_depth ha
  obtain ⟨n, -, hn⟩ := h.exists_depth hb
  rcases Nat.lt_trichotomy m n with hlt | rfl | hlt
  · exact .inl (h.transGen_of_lt hp ha hb hm hn hlt)
  · exact absurd (h.depth_injective hp ha hb hm hn) hne
  · exact .inr (h.transGen_of_lt hp hb ha hn hm hlt)

/-! ## Shared phases -/

theorem exists_shared (hp : p.isAmbiguous = true) :
    ∃ front a b back layer, p.flatten = front ++ a :: b :: back ∧ layer ∈ p.layers ∧
      a ∈ layer ∧ b ∈ layer := by
  obtain ⟨layer, hlayer, hlen⟩ := List.any_eq_true.1 hp
  obtain ⟨before, after, hsplit⟩ := List.append_of_mem hlayer
  match layer, hlen with
  | a :: b :: rest, _ =>
    refine ⟨before.flatten, a, b, rest ++ after.flatten, _, ?_, hlayer, by simp, by simp⟩
    simp [flatten, hsplit]

variable [Scalar α]

/-- A step is not upstream of a step of the same depth. -/
theorem Layered.not_transGen (h : Layered d p) (hs : d.Sound []) {layer : List ShapeId}
    (hlayer : layer ∈ p.layers) (ha : a ∈ layer) (hb : b ∈ layer) : ¬ TransGen d.Feeds a b := by
  intro hab
  obtain ⟨n, hn⟩ := List.mem_iff_getElem?.1 hlayer
  have hmem : ∀ {x}, x ∈ layer → x ∈ d.steps :=
    fun hx => h.perm.mem_iff.1 (List.mem_flatten.2 ⟨layer, hlayer, hx⟩)
  have hall : ∀ x ∈ d.steps, ∃ k, d.Depth x k := by
    intro x hx
    obtain ⟨k, -, hk⟩ := h.exists_depth hx
    exact ⟨k, hk⟩
  have hpath := hs.transGen_stepFeeds (hmem ha) (hmem hb) hab
  exact Nat.lt_irrefl n (Depth.lt_of_transGen hall hpath (h.depth n layer hn a ha)
    (h.depth n layer hn b hb))

theorem Layered.linearizes_flatten (h : Layered d p) (hs : d.Sound []) :
    Linearizes d p.flatten where
  perm := h.perm
  upstream _ ha _ hb hab := h.pair_sublist ha hb (hs.transGen_stepFeeds ha hb hab)

/-- Of a shared phase, two steps can change places. -/
theorem Layered.exists_ne (h : Layered d p) (hs : d.Sound []) (hp : p.isAmbiguous = true) :
    ∃ l, Linearizes d l ∧ l ≠ p.flatten := by
  obtain ⟨front, a, b, back, layer, hflat, hlayer, ha, hb⟩ := exists_shared hp
  have hlinear := h.linearizes_flatten hs
  rw [hflat] at hlinear ⊢
  have hnodup := hlinear.perm.nodup_iff.2 hs.steps_nodup
  refine ⟨front ++ b :: a :: back, ?_, ?_⟩
  · apply linearizes_of_pairwise hs.acyclic
    · exact ((List.Perm.swap a b back).append_left front).trans hlinear.perm
    · exact pairwise_swap (hlinear.pairwise hs.steps_nodup) (h.not_transGen hs hlayer ha hb)
  · intro heq
    obtain ⟨rfl, -⟩ := List.cons.inj (List.append_cancel_left heq)
    simp [List.nodup_append] at hnodup

/-- The phases that are computed for a reachable diagram leave no choice just when there is only one
order that the cables allow. -/
theorem isAmbiguous_eq_false_iff (h : d.Reachable) (hp : compute d = .ok p) :
    p.isAmbiguous = false ↔ ∃! l, Linearizes d l := by
  have hs := h.sound
  have hlayered := layered_of_compute hs hp
  have hlinear := hlayered.linearizes_flatten hs
  constructor
  · intro hambiguous
    refine ⟨p.flatten, hlinear, fun l hl => ?_⟩
    exact hl.unique hlinear hs.steps_nodup
      fun _ ha _ hb hne => hlayered.transGen_or hambiguous ha hb hne
  · rintro ⟨l, -, honly⟩
    by_contra hambiguous
    obtain ⟨l', hl', hne⟩ := hlayered.exists_ne hs (Bool.eq_true_of_not_eq_false hambiguous)
    exact hne ((honly l' hl').trans (honly p.flatten hlinear).symm)

/-- A step that feeds another. -/
def oneAfterOther : List (Change Double) :=
  [.addShape (.step "g" [⟨"x", .none⟩] [] Point.origin),
   .addShape (.step "f" [] [⟨"y", .none⟩] Point.origin),
   .connect ⟨⟨1⟩, .output, 0⟩ ⟨⟨0⟩, .input, 0⟩]

theorem existsUnique_linearizes_oneAfterOther :
    ((blank.after oneAfterOther).Reachable ∧
      compute (blank.after oneAfterOther) = .ok ⟨[[⟨1⟩], [⟨0⟩]]⟩) ∧
    ∃! l, Linearizes (blank.after oneAfterOther) l := by
  have hreach : (blank.after oneAfterOther).Reachable := by
    refine ⟨_, ?_, rfl⟩
    simp [oneAfterOther, Change.Built, Shape.Built.step]
  have hafter : blank.after oneAfterOther =
      (blank.after (oneAfterOther.take 2)).join ⟨⟨1⟩, .output, 0⟩ ⟨⟨0⟩, .input, 0⟩ := by
    rw [← run_connect_of_successors_eq_nil rfl rfl rfl rfl rfl rfl (by decide) rfl]
    rfl
  have hcompute : compute (blank.after oneAfterOther) = .ok ⟨[[⟨1⟩], [⟨0⟩]]⟩ := by
    rw [hafter]
    rfl
  exact ⟨⟨hreach, hcompute⟩, (isAmbiguous_eq_false_iff hreach hcompute).1 rfl⟩

end Phases

end Patchbay
