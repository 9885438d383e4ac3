import Mathlib.Data.List.Forall2
import Mathlib.Data.List.Nodup
import Mathlib.Data.List.Perm.Basic
import Mathlib.Data.Set.Function

/-!
# Lists side by side

Facts about two lists whose elements belong together one by one, as those of a list and of what is
made of it.
-/

namespace Patchbay

open List (Forall₂)

variable {β γ δ : Type}

/-- If a function has a result for each element, the results pair up with the elements. -/
theorem forall₂_filterMap {f : β → Option γ} {l : List β} (h : ∀ x ∈ l, (f x).isSome) :
    Forall₂ (fun x y => f x = some y) l (l.filterMap f) := by
  induction l with
  | nil => exact .nil
  | cons x l ih =>
    obtain ⟨y, hy⟩ := Option.isSome_iff_exists.1 (h x List.mem_cons_self)
    rw [List.filterMap_cons_some hy]
    exact .cons hy (ih fun z hz => h z (List.mem_cons_of_mem x hz))

theorem forall₂_filterMap_right {R : β → γ → Prop} {f : γ → Option δ} {l : List β} {m : List γ}
    (h : Forall₂ R l m) (hf : ∀ x y, R x y → (f y).isSome) :
    Forall₂ (fun x z => ∃ y, R x y ∧ f y = some z) l (m.filterMap f) := by
  induction h with
  | nil => exact .nil
  | cons hxy _ ih =>
    obtain ⟨z, hz⟩ := Option.isSome_iff_exists.1 (hf _ _ hxy)
    rw [List.filterMap_cons_some hz]
    exact .cons ⟨_, hxy, hz⟩ ih

/-- The results pair up with the elements, and are numbered from the start on. -/
theorem forall₂_zipIdx_filterMap {f : β → Option γ} {l : List β} (h : ∀ x ∈ l, (f x).isSome)
    (start : Nat) :
    Forall₂ (fun x y => f x = some y.1) l
      ((l.zipIdx start).filterMap fun (x, i) => (f x).map (·, i + 1)) ∧
    ((l.zipIdx start).filterMap fun (x, i) => (f x).map (·, i + 1)).map (·.2) =
      List.range' (start + 1) l.length := by
  induction l generalizing start with
  | nil => exact ⟨.nil, rfl⟩
  | cons x l ih =>
    obtain ⟨y, hy⟩ := Option.isSome_iff_exists.1 (h x List.mem_cons_self)
    obtain ⟨hpairs, hnumbers⟩ := ih (fun z hz => h z (List.mem_cons_of_mem x hz)) (start + 1)
    have hcons : ((x :: l).zipIdx start).filterMap (fun (x, i) => (f x).map (·, i + 1)) =
        (y, start + 1) :: (l.zipIdx (start + 1)).filterMap fun (x, i) => (f x).map (·, i + 1) := by
      simp [hy]
    rw [hcons]
    refine ⟨.cons hy hpairs, ?_⟩
    rw [List.map_cons, hnumbers, List.length_cons, List.range'_succ]

/-- What pairs two lists up may be weakened by what is known of the entries at each index. -/
theorem forall₂_imp_getElem? {R S : β → γ → Prop} {l : List β} {m : List γ} (h : Forall₂ R l m)
    (himp : ∀ (i : Nat) x y, l[i]? = some x → m[i]? = some y → R x y → S x y) : Forall₂ S l m := by
  induction h with
  | nil => exact .nil
  | cons hxy _ ih => exact .cons (himp 0 _ _ rfl rfl hxy) (ih fun i => himp (i + 1))

theorem forall₂_imp_mem {R S : β → γ → Prop} {l : List β} {m : List γ} (h : Forall₂ R l m)
    (himp : ∀ x ∈ l, ∀ y ∈ m, R x y → S x y) : Forall₂ S l m :=
  forall₂_imp_getElem? h fun _ x y hx hy =>
    himp x (List.mem_of_getElem? hx) y (List.mem_of_getElem? hy)

theorem map_eq_of_forall₂ {f : β → δ} {g : γ → δ} {l : List β} {m : List γ}
    (h : Forall₂ (fun x y => f x = g y) l m) : l.map f = m.map g := by
  induction h with
  | nil => rfl
  | cons hxy _ ih => rw [List.map_cons, List.map_cons, hxy, ih]

theorem forall₂_of_map_eq {f : β → δ} {g : γ → δ} {l : List β} {m : List γ}
    (h : l.map f = m.map g) : Forall₂ (fun x y => f x = g y) l m := by
  rwa [← List.forall₂_eq_eq_eq, List.forall₂_map_left_iff, List.forall₂_map_right_iff] at h

theorem filterMap_eq_of_forall₂ {f : β → Option δ} {g : γ → Option δ} {l : List β} {m : List γ}
    (h : Forall₂ (fun x y => f x = g y) l m) : l.filterMap f = m.filterMap g := by
  induction h with
  | nil => rfl
  | cons hxy _ ih => rw [List.filterMap_cons, List.filterMap_cons, hxy, ih]

theorem getElem?_of_forall₂ {R : β → γ → Prop} {l : List β} {m : List γ} (h : Forall₂ R l m)
    {i : Nat} {x : β} (hi : l[i]? = some x) : ∃ y, m[i]? = some y ∧ R x y := by
  induction h generalizing i with
  | nil => simp at hi
  | cons hxy _ ih =>
    cases i with
    | zero =>
      cases hi
      exact ⟨_, rfl, hxy⟩
    | succ i => exact ih (by simpa using hi)

theorem exists_of_mem_right {R : β → γ → Prop} {l : List β} {m : List γ} (h : Forall₂ R l m)
    {y : γ} (hy : y ∈ m) : ∃ (i : Nat) (x : β), l[i]? = some x ∧ m[i]? = some y ∧ R x y := by
  obtain ⟨i, hi⟩ := List.mem_iff_getElem?.1 hy
  obtain ⟨x, hx, hxy⟩ := getElem?_of_forall₂ h.flip hi
  exact ⟨i, x, hx, hi, hxy⟩

theorem eq_of_map_eq_range' {f : β → Nat} {l : List β} (h : l.map f = List.range' 1 l.length)
    {i : Nat} {x : β} (hi : l[i]? = some x) : f x = i + 1 := by
  have hlt := (List.getElem?_eq_some_iff.1 hi).1
  have hget : (l.map f)[i]? = some (f x) := by rw [List.getElem?_map, hi, Option.map_some]
  rw [h, List.getElem?_range' hlt, Option.some.injEq] at hget
  omega

theorem getElem?_concat (l : List β) (x : β) (i : Nat) :
    (l ++ [x])[i]? = if i = l.length then some x else l[i]? := by
  split
  · rename_i h
    rw [h, List.getElem?_concat_length]
  · rename_i h
    rcases Nat.lt_or_gt_of_ne h with hlt | hgt
    · rw [List.getElem?_append_left hlt]
    · rw [List.getElem?_eq_none (Nat.le_of_lt hgt), List.getElem?_eq_none]
      simpa [Nat.succ_le_iff] using hgt

theorem getElem?_append_add (l m : List β) (n : Nat) : (l ++ m)[l.length + n]? = m[n]? := by
  rw [List.getElem?_append_right (Nat.le_add_right _ n), Nat.add_sub_cancel_left]

/-- In a list without repetition, what comes first has the smaller index. -/
theorem lt_of_pair_sublist {l : List β} (h : l.Nodup) {a b : β} (hab : [a, b].Sublist l) {i j : Nat}
    (hi : l[i]? = some a) (hj : l[j]? = some b) : i < j := by
  obtain ⟨front, back, rfl, ha, hb⟩ := List.cons_sublist_iff.1 hab
  obtain ⟨m, hm⟩ := List.mem_iff_getElem?.1 ha
  obtain ⟨n, hn⟩ := List.mem_iff_getElem?.1 (List.singleton_sublist.1 hb)
  have hmlt := (List.getElem?_eq_some_iff.1 hm).1
  have him : i = m := by
    refine (List.getElem?_inj (List.getElem?_eq_some_iff.1 hi).1 h).1 ?_
    rw [hi, List.getElem?_append_left hmlt, hm]
  have hjn : j = front.length + n := by
    refine (List.getElem?_inj (List.getElem?_eq_some_iff.1 hj).1 h).1 ?_
    rw [hj, List.getElem?_append_right (Nat.le_add_right _ n), Nat.add_sub_cancel_left, hn]
  omega

/-- If each element has a partner, the partners make a list. -/
theorem exists_forall₂ {R : β → γ → Prop} {l : List β} (h : ∀ x ∈ l, ∃ y, R x y) :
    ∃ m, Forall₂ R l m := by
  induction l with
  | nil => exact ⟨[], .nil⟩
  | cons x l ih =>
    obtain ⟨y, hy⟩ := h x List.mem_cons_self
    obtain ⟨m, hm⟩ := ih fun z hz => h z (List.mem_cons_of_mem x hz)
    exact ⟨y :: m, .cons hy hm⟩

/-- What tells the partners of different elements apart tells all partners apart. -/
theorem nodup_map_of_forall₂ {ε ζ : Type} {R : β → γ → Prop} {f : β → ε} {g : γ → ζ} {l : List β}
    {m : List γ} (h : Forall₂ R l m)
    (hinj : ∀ x x' y y', R x y → R x' y' → g y = g y' → f x = f x') (hl : (l.map f).Nodup) :
    (m.map g).Nodup := by
  induction h with
  | nil => exact List.nodup_nil
  | @cons x y l m hxy hlm ih =>
    obtain ⟨hx, hl⟩ := List.nodup_cons.1 hl
    refine List.nodup_cons.2 ⟨fun hy => hx ?_, ih hl⟩
    obtain ⟨y', hy', heq⟩ := List.mem_map.1 hy
    obtain ⟨i, x', hx', -, hxy'⟩ := exists_of_mem_right hlm hy'
    rw [hinj x x' y y' hxy hxy' heq.symm]
    exact List.mem_map_of_mem (List.mem_of_getElem? hx')

/-! ## Lists of pairs -/

/-- A list can be put in another order together with what is made of it. -/
theorem exists_perm_map_eq {f : β → γ} {l : List β} {m : List γ} (h : (l.map f).Perm m) :
    ∃ l' : List β, l'.Perm l ∧ l'.map f = m := by
  have hsame : Forall₂ (fun y x => f x = y) (l.map f) l :=
    List.forall₂_map_left_iff.2 (List.forall₂_same.2 fun _ _ => rfl)
  obtain ⟨l', hl', hperm⟩ := List.perm_comp_forall₂ h.symm hsame
  refine ⟨l', hperm, ?_⟩
  have heq := map_eq_of_forall₂ (f := f) (g := id) hl'.flip
  rwa [List.map_id] at heq

/-- A list without repetition can be mapped to any list of the same length. -/
theorem exists_map_eq [DecidableEq β] [Inhabited γ] {l : List β} {m : List γ} (h : l.Nodup)
    (hlen : l.length = m.length) : ∃ f : β → γ, l.map f = m := by
  refine ⟨fun x => (m[l.idxOf x]?).getD default, List.ext_getElem (by simpa using hlen) ?_⟩
  intro i hi hm
  rw [List.length_map] at hi
  rw [List.getElem_map, h.idxOf_getElem i hi, List.getElem?_eq_getElem hm, Option.getD_some]

theorem bijOn_of_nodup_map {f : β → γ} {l : List β} (h : (l.map f).Nodup) :
    Set.BijOn f {x | x ∈ l} {y | y ∈ l.map f} :=
  ⟨fun _ hx => List.mem_map_of_mem hx, fun _ hx _ hy => List.inj_on_of_nodup_map h hx hy,
    fun _ hy => List.mem_map.1 hy⟩

theorem eq_map_prodMap {β' γ' : Type} {f : β → β'} {g : γ → γ'} {l : List (β × γ)}
    {m : List (β' × γ')} (hfst : m.map Prod.fst = (l.map Prod.fst).map f)
    (hsnd : m.map Prod.snd = (l.map Prod.snd).map g) : m = l.map (Prod.map f g) := by
  refine (List.zip_of_prod hfst hsnd).trans (List.zip_of_prod ?_ ?_).symm
  · rw [List.map_map, List.map_map]
    rfl
  · rw [List.map_map, List.map_map]
    rfl

/-! ## The only one -/

/-- One element is left of a list without repetition if it is the only one with the property. -/
theorem filter_eq_singleton_iff {l : List β} {p : β → Bool} (h : l.Nodup) {x : β} :
    l.filter p = [x] ↔ (x ∈ l ∧ p x = true) ∧ ∀ y ∈ l, p y = true → y = x := by
  constructor
  · intro hf
    refine ⟨List.mem_filter.1 (hf ▸ List.mem_singleton_self x), fun y hy hpy => ?_⟩
    exact List.mem_singleton.1 (hf ▸ List.mem_filter.2 ⟨hy, hpy⟩)
  · rintro ⟨hx, hall⟩
    refine List.perm_singleton.1 ((List.perm_ext_iff_of_nodup (h.filter p) ?_).2 fun y => ?_)
    · simp
    · rw [List.mem_filter, List.mem_singleton]
      exact ⟨fun hy => hall y hy.1 hy.2, fun hy => hy ▸ hx⟩

/-- One entry is left of a numbered list if its index is the only one with the property. -/
theorem filter_zipIdx_eq_singleton_iff {l : List β} {p : β → Bool} {x : β} {i : Nat} :
    (l.zipIdx.filter fun y => p y.1) = [(x, i)] ↔
      (l[i]? = some x ∧ p x = true) ∧ ∀ j y, l[j]? = some y → p y = true → j = i := by
  have hnodup : l.zipIdx.Nodup := by
    refine List.Nodup.of_map Prod.snd ?_
    rw [List.zipIdx_map_snd]
    exact List.nodup_range'
  rw [filter_eq_singleton_iff hnodup, List.mk_mem_zipIdx_iff_getElem?]
  refine and_congr_right fun hx => ⟨fun h j y hj hy => ?_, fun h y hy hpy => ?_⟩
  · exact congrArg Prod.snd (h (y, j) (List.mk_mem_zipIdx_iff_getElem?.2 hj) hy)
  · have hget := List.mk_mem_zipIdx_iff_getElem?.1 (show (y.1, y.2) ∈ l.zipIdx from hy)
    have hi := h y.2 y.1 hget hpy
    rw [hi, hx.1] at hget
    exact Prod.ext (Option.some.inj hget).symm hi

/-- If only one element of a list has a property, so has only one index. -/
theorem filter_eq_singleton_iff_zipIdx {l : List β} {p : β → Bool} {x : β} :
    l.filter p = [x] ↔ ∃ i, (l.zipIdx.filter fun y => p y.1) = [(x, i)] := by
  have hmap : (l.zipIdx.filter fun y => p y.1).map Prod.fst = l.filter p := by
    conv_rhs => rw [← List.zipIdx_map_fst 0 l, List.filter_map]
    rfl
  rw [← hmap]
  constructor
  · intro h
    obtain ⟨⟨y, i⟩, hy, rfl⟩ := List.map_eq_singleton_iff.1 h
    exact ⟨i, hy⟩
  · rintro ⟨i, hi⟩
    rw [hi, List.map_singleton]

theorem filter_eq_singleton_of_perm {l l' : List β} {p : β → Bool} {x : β}
    (h : l.Perm l') : l.filter p = [x] ↔ l'.filter p = [x] := by
  rw [← List.perm_singleton, ← List.perm_singleton]
  exact ⟨(h.filter p).symm.trans, (h.filter p).trans⟩

/-- If something tells the elements apart, an element is found by it. -/
theorem find?_eq_some_iff_of_nodup [DecidableEq γ] {f : β → γ} {l : List β} (h : (l.map f).Nodup)
    {x : β} {y : γ} : l.find? (fun z => decide (f z = y)) = some x ↔ x ∈ l ∧ f x = y := by
  constructor
  · intro hx
    have hy : decide (f x = y) = true := List.find?_some (p := fun z => decide (f z = y)) hx
    exact ⟨List.mem_of_find?_eq_some hx, of_decide_eq_true hy⟩
  · rintro ⟨hx, rfl⟩
    cases hfound : l.find? fun z => decide (f z = f x) with
    | none => exact absurd (decide_eq_true rfl) (List.find?_eq_none.1 hfound x hx)
    | some z =>
      have hz : decide (f z = f x) = true :=
        List.find?_some (p := fun z => decide (f z = f x)) hfound
      exact congrArg some (List.inj_on_of_nodup_map h (List.mem_of_find?_eq_some hfound) hx
        (of_decide_eq_true hz))

end Patchbay
