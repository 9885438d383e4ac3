import Mathlib.Data.List.Forall2

/-!
# Running actions

An action on a state gives a result or is refused, and leaves a state behind in both cases. Here is
what becomes of actions that are put together.
-/

namespace Patchbay

namespace Running

open List (Forall₂)

variable {ε σ β γ : Type}

theorem run_pure (b : β) (s : σ) : (pure b : ExceptT ε (StateM σ) β).run s = (.ok b, s) := rfl

theorem run_get_bind (f : σ → ExceptT ε (StateM σ) γ) (s : σ) :
    (get >>= f).run s = (f s).run s := rfl

theorem run_modify (f : σ → σ) (s : σ) :
    (modify f : ExceptT ε (StateM σ) PUnit).run s = (.ok ⟨⟩, f s) := rfl

theorem run_bind (x : ExceptT ε (StateM σ) β) (f : β → ExceptT ε (StateM σ) γ) (s : σ) :
    (x >>= f).run s = match x.run s with
      | (.ok b, s') => (f b).run s'
      | (.error e, s') => (.error e, s') := by
  change (ExceptT.bindCont f (x.run s).1 : StateM σ _) (x.run s).2 = _
  rcases x.run s with ⟨_ | _, s'⟩ <;> rfl

theorem run_bind_ok {x : ExceptT ε (StateM σ) β} {s s' : σ} {b : β} (h : x.run s = (.ok b, s'))
    (f : β → ExceptT ε (StateM σ) γ) : (x >>= f).run s = (f b).run s' := by
  rw [run_bind, h]

theorem run_bind_error {x : ExceptT ε (StateM σ) β} {s s' : σ} {e : ε}
    (h : x.run s = (.error e, s')) (f : β → ExceptT ε (StateM σ) γ) :
    (x >>= f).run s = (.error e, s') := by
  rw [run_bind, h]

/-- What two actions in a row give, each of them has given. -/
theorem run_bind_eq_ok_iff {x : ExceptT ε (StateM σ) β} {f : β → ExceptT ε (StateM σ) γ}
    {s s' : σ} {c : γ} : (x >>= f).run s = (.ok c, s') ↔
      ∃ b s₁, x.run s = (.ok b, s₁) ∧ (f b).run s₁ = (.ok c, s') := by
  constructor
  · intro h
    rw [run_bind] at h
    rcases hx : x.run s with ⟨e | b, s₁⟩
    · rw [hx] at h
      cases h
    · rw [hx] at h
      exact ⟨b, s₁, rfl, h⟩
  · rintro ⟨b, s₁, hx, h⟩
    rw [run_bind_ok hx, h]

/-- A result that does not depend on the state. -/
theorem run_liftM (x : Except ε β) (s : σ) :
    (liftM x : ExceptT ε (StateM σ) β).run s = (x, s) := rfl

theorem run_liftM_bind_eq_ok_iff {x : Except ε β} {f : β → ExceptT ε (StateM σ) γ} {s s' : σ}
    {c : γ} : (liftM x >>= f).run s = (.ok c, s') ↔
      ∃ b, x = .ok b ∧ (f b).run s = (.ok c, s') := by
  rw [run_bind_eq_ok_iff]
  constructor
  · rintro ⟨b, s₁, hx, hf⟩
    obtain ⟨rfl, rfl⟩ := Prod.mk.inj hx
    exact ⟨b, rfl, hf⟩
  · rintro ⟨b, rfl, hf⟩
    exact ⟨b, s, rfl, hf⟩

theorem run_bind_pure_eq_ok_iff {x : ExceptT ε (StateM σ) β} {c : γ} {s s' : σ} :
    (x >>= fun _ => pure c).run s = (.ok c, s') ↔ ∃ b, x.run s = (.ok b, s') := by
  rw [run_bind_eq_ok_iff]
  constructor
  · rintro ⟨b, s₁, hx, hs⟩
    obtain ⟨-, rfl⟩ := Prod.mk.inj hs
    exact ⟨b, hx⟩
  · rintro ⟨b, hx⟩
    exact ⟨b, s', hx, rfl⟩

theorem run_map_snd (f : β → γ) (x : ExceptT ε (StateM σ) β) (s : σ) :
    ((f <$> x).run s).2 = (x.run s).2 := by
  change ((x >>= fun b => pure (f b)).run s).2 = _
  rw [run_bind]
  rcases x.run s with ⟨_ | _, _⟩ <;> rfl

theorem run_seqRight_pure_snd (x : ExceptT ε (StateM σ) β) (c : γ) (s : σ) :
    ((x *> pure c).run s).2 = (x.run s).2 := by
  change ((x >>= fun _ => pure c).run s).2 = _
  rw [run_bind]
  rcases x.run s with ⟨_ | _, _⟩ <;> rfl

/-! ## Loops -/

/-- What each round keeps, a loop that goes through keeps. -/
theorem forM_keeps {P : σ → Prop} {f : β → ExceptT ε (StateM σ) PUnit} {bs : List β}
    (h : ∀ b ∈ bs, ∀ s s', P s → (f b).run s = (.ok ⟨⟩, s') → P s') {s s' : σ}
    (hrun : (bs.forM f).run s = (.ok ⟨⟩, s')) (hs : P s) : P s' := by
  induction bs generalizing s with
  | nil =>
    cases hrun
    exact hs
  | cons b bs ih =>
    obtain ⟨⟨⟩, s₁, hfirst, hrest⟩ := run_bind_eq_ok_iff.1 hrun
    exact ih (fun b' hb' => h b' (List.mem_cons_of_mem b hb')) hrest
      (h b List.mem_cons_self s s₁ hs hfirst)

theorem run_forM_cons (f : β → ExceptT ε (StateM σ) PUnit) (b : β) (bs : List β) (s : σ) :
    ((b :: bs).forM f).run s = (f b >>= fun _ => bs.forM f).run s := rfl

theorem run_forM_singleton (f : β → ExceptT ε (StateM σ) PUnit) (b : β) (s : σ) :
    ([b].forM f).run s = (f b).run s := by
  rw [run_forM_cons, run_bind]
  rcases (f b).run s with ⟨_ | _, _⟩ <;> rfl

theorem run_forM_append (f : β → ExceptT ε (StateM σ) PUnit) (bs bs' : List β) (s : σ) :
    ((bs ++ bs').forM f).run s = (bs.forM f >>= fun _ => bs'.forM f).run s := by
  induction bs generalizing s with
  | nil => rfl
  | cons b bs ih =>
    rw [List.cons_append, run_forM_cons, run_bind, run_bind, run_forM_cons, run_bind]
    rcases (f b).run s with ⟨e | ⟨⟨⟩⟩, s'⟩
    · rfl
    · exact (ih s').trans (run_bind _ _ s')

theorem run_forM_map (f : β → ExceptT ε (StateM σ) PUnit) (g : γ → β) (cs : List γ) (s : σ) :
    ((cs.map g).forM f).run s = (cs.forM fun c => f (g c)).run s := by
  induction cs generalizing s with
  | nil => rfl
  | cons c cs ih =>
    rw [List.map_cons, run_forM_cons, run_forM_cons, run_bind, run_bind]
    rcases (f (g c)).run s with ⟨e | ⟨⟨⟩⟩, s'⟩
    · rfl
    · exact ih s'

/-- A loop whose rounds cannot be refused is a fold. -/
theorem run_forM_of_ok {f : β → ExceptT ε (StateM σ) PUnit} {g : σ → β → σ}
    (h : ∀ s b, (f b).run s = (.ok ⟨⟩, g s b)) (bs : List β) (s : σ) :
    (bs.forM f).run s = (.ok ⟨⟩, bs.foldl g s) := by
  induction bs generalizing s with
  | nil => rfl
  | cons b bs ih => rw [run_forM_cons, run_bind_ok (h s b), ih, List.foldl_cons]

/-- A loop goes through if an invariant of what is still to be done keeps each round from being
refused. -/
theorem run_forM_of_inv {f : β → ExceptT ε (StateM σ) PUnit} {P : List β → σ → Prop}
    (h : ∀ b bs s, P (b :: bs) s → ∃ s', (f b).run s = (.ok ⟨⟩, s') ∧ P bs s') :
    ∀ bs s, P bs s → ∃ s', (bs.forM f).run s = (.ok ⟨⟩, s') ∧ P [] s'
  | [], s, hs => ⟨s, rfl, hs⟩
  | b :: bs, s, hs => by
    obtain ⟨s₁, hrun, hs₁⟩ := h b bs s hs
    obtain ⟨s₂, hrest, hs₂⟩ := run_forM_of_inv h bs s₁ hs₁
    exact ⟨s₂, by rw [run_forM_cons, run_bind_ok hrun, hrest], hs₂⟩

/-! ## What actions keep -/

/-- What each round keeps, a loop without refusals keeps. -/
theorem foldl_keeps {P : σ → Prop} {f : σ → β → σ} (h : ∀ s b, P s → P (f s b)) :
    ∀ (bs : List β) {s : σ}, P s → P (bs.foldl f s)
  | [], _, hs => hs
  | b :: bs, s, hs => foldl_keeps h bs (h s b hs)

/-- What holds of the state holds after the action too, whether it goes through or is refused. -/
def Keeps (P : σ → Prop) (x : ExceptT ε (StateM σ) β) : Prop := ∀ s, P s → P (x.run s).2

section Keeps

variable {P : σ → Prop}

theorem keeps_pure (b : β) : Keeps P (pure b : ExceptT ε (StateM σ) β) := fun _ => id

theorem keeps_get : Keeps P (get : ExceptT ε (StateM σ) σ) := fun _ => id

theorem keeps_modify {f : σ → σ} (h : ∀ s, P s → P (f s)) :
    Keeps P (modify f : ExceptT ε (StateM σ) PUnit) := h

theorem Keeps.bind {x : ExceptT ε (StateM σ) β} {f : β → ExceptT ε (StateM σ) γ}
    (hx : Keeps P x) (hf : ∀ b, Keeps P (f b)) : Keeps P (x >>= f) := by
  intro s hs
  have hfirst := hx s hs
  rw [run_bind]
  revert hfirst
  rcases x.run s with ⟨e | b, s'⟩
  · exact id
  · exact hf b s'

theorem keeps_forM {f : β → ExceptT ε (StateM σ) PUnit} (h : ∀ b, Keeps P (f b)) :
    ∀ bs : List β, Keeps P (bs.forM f)
  | [] => keeps_pure _
  | b :: bs => (h b).bind fun _ => keeps_forM h bs

end Keeps

/-! ## When loops go through -/

/-- The outcome is no refusal just when `q` holds, and then the state has `P`. -/
def GoesThrough (outcome : Except ε PUnit × σ) (q : Prop) (P : σ → Prop) : Prop :=
  ((∃ s, outcome = (.ok ⟨⟩, s)) ↔ q) ∧ ∀ s, outcome = (.ok ⟨⟩, s) → P s

theorem goesThrough_of_iff {x : ExceptT ε (StateM σ) PUnit} {q : Prop} {P : σ → Prop} {s s₁ : σ}
    (h : ∀ s', x.run s = (.ok ⟨⟩, s') ↔ q ∧ s' = s₁) (hP : q → P s₁) :
    GoesThrough (x.run s) q P := by
  refine ⟨⟨fun ⟨s', hs⟩ => ((h s').1 hs).1, fun hq => ⟨s₁, (h s₁).2 ⟨hq, rfl⟩⟩⟩, fun s' hs => ?_⟩
  obtain ⟨hq, rfl⟩ := (h s').1 hs
  exact hP hq

theorem GoesThrough.bind {x : ExceptT ε (StateM σ) PUnit} {f : PUnit → ExceptT ε (StateM σ) PUnit}
    {q q' : Prop} {P P' : σ → Prop} {s : σ} (hx : GoesThrough (x.run s) q P)
    (hf : ∀ s', P s' → GoesThrough ((f ⟨⟩).run s') q' P') :
    GoesThrough ((x >>= f).run s) (q ∧ q') P' := by
  constructor
  · constructor
    · rintro ⟨s₂, h⟩
      obtain ⟨⟨⟩, s₁, h₁, h₂⟩ := run_bind_eq_ok_iff.1 h
      exact ⟨hx.1.1 ⟨s₁, h₁⟩, (hf s₁ (hx.2 s₁ h₁)).1.1 ⟨s₂, h₂⟩⟩
    · rintro ⟨hq, hq'⟩
      obtain ⟨s₁, h₁⟩ := hx.1.2 hq
      obtain ⟨s₂, h₂⟩ := (hf s₁ (hx.2 s₁ h₁)).1.2 hq'
      exact ⟨s₂, run_bind_eq_ok_iff.2 ⟨⟨⟩, s₁, h₁, h₂⟩⟩
  · intro s₂ h
    obtain ⟨⟨⟩, s₁, h₁, h₂⟩ := run_bind_eq_ok_iff.1 h
    exact (hf s₁ (hx.2 s₁ h₁)).2 s₂ h₂

/-- A loop goes through just when each round does, if a round that follows what the rounds before it
have dealt with goes through just when its own block is good. The blocks in a row are all that there
is to deal with. -/
theorem goesThrough_forM_of_blocks {δ : Type} {f : β → ExceptT ε (StateM σ) PUnit}
    {R : List δ → β → Prop} {P : List δ → σ → Prop} {Q : δ → Prop} {total : List δ}
    (h : ∀ done block b s, R block b → done ++ block <+: total → P done s →
      GoesThrough ((f b).run s) (∀ x ∈ block, Q x) (P (done ++ block)))
    {blocks : List (List δ)} {bs : List β} (hR : Forall₂ R blocks bs) :
    ∀ {done : List δ} {s : σ}, done ++ blocks.flatten <+: total → P done s →
      GoesThrough ((bs.forM f).run s) (∀ x ∈ blocks.flatten, Q x) (P (done ++ blocks.flatten)) := by
  induction hR with
  | nil =>
    intro done s _ hs
    refine ⟨⟨fun _ => by simp, fun _ => ⟨s, rfl⟩⟩, fun s' hs' => ?_⟩
    cases hs'
    simpa using hs
  | @cons block b blocks bs hb _ ih =>
    intro done s hfront hs
    simp only [List.flatten_cons, List.forall_mem_append]
    rw [List.flatten_cons, ← List.append_assoc] at hfront
    rw [← List.append_assoc]
    have hfirst := h done block b s hb ((List.prefix_append _ _).trans hfront) hs
    exact hfirst.bind fun s₁ hs₁ => ih hfront hs₁

/-- The same for rounds that deal with one thing each. -/
theorem goesThrough_forM_of_pairs {δ : Type} {f : β → ExceptT ε (StateM σ) PUnit}
    {R : δ → β → Prop} {P : List δ → σ → Prop} {Q : δ → Prop} {total : List δ}
    (h : ∀ done x b s, R x b → done ++ [x] <+: total → P done s →
      GoesThrough ((f b).run s) (Q x) (P (done ++ [x])))
    {xs : List δ} {bs : List β} (hR : Forall₂ R xs bs) {done : List δ} {s : σ}
    (hfront : done ++ xs <+: total) (hs : P done s) :
    GoesThrough ((bs.forM f).run s) (∀ x ∈ xs, Q x) (P (done ++ xs)) := by
  have hflat : (xs.map fun x => [x]).flatten = xs := by
    rw [← List.flatMap_def, List.flatMap_singleton']
  have hblocks : Forall₂ (fun block b => ∃ x, block = [x] ∧ R x b) (xs.map fun x => [x]) bs :=
    List.forall₂_map_left_iff.2 (hR.imp fun x b hx => ⟨x, rfl, hx⟩)
  have hround : ∀ done block b s, (∃ x, block = [x] ∧ R x b) → done ++ block <+: total →
      P done s → GoesThrough ((f b).run s) (∀ x ∈ block, Q x) (P (done ++ block)) := by
    rintro done block b s ⟨x, rfl, hx⟩ hfront hs
    rw [List.forall_mem_singleton]
    exact h done x b s hx hfront hs
  have hall : done ++ (xs.map fun x => [x]).flatten <+: total := by rwa [hflat]
  have hloop := goesThrough_forM_of_blocks hround hblocks hall hs
  rwa [hflat] at hloop

end Running

end Patchbay
