import Patchbay.Proofs.Collision

/-!
# Turns

A resolution is a sequence of turns. In its turn a shape is pushed until nothing is in its way. The
shape that the resolution is for comes first, and each shape that is pushed aside has one turn later
(`exists_turns_clearAll`). If no limit is met, a turn ends with its shape clear of the obstacle and
of all other shapes.

That need not last. The turn of another shape may push it again, and then it has no second turn. But
this is all that can go wrong: shapes that are left alone after their turns do not overlap
(`exists_turns_of_not_capped`).
-/

namespace Patchbay

/-! ## Overlaps in a diagram -/

namespace Diagram

variable {α : Type} [Scalar α] {d d' : Diagram α} {i j : ShapeId}

def Overlap (d : Diagram α) (i j : ShapeId) : Prop :=
  ∃ s ∈ d.shape? i, ∃ t ∈ d.shape? j, s.Overlaps t

instance (d : Diagram α) (i j : ShapeId) : Decidable (d.Overlap i j) :=
  inferInstanceAs (Decidable (∃ s ∈ d.shape? i, ∃ t ∈ d.shape? j, s.Overlaps t))

theorem Overlap.symm (h : d.Overlap i j) : d.Overlap j i := by
  obtain ⟨s, hs, t, ht, hst⟩ := h
  exact ⟨t, ht, s, hs, Or.symm hst⟩

theorem overlap_congr (hi : d'.shape? i = d.shape? i) (hj : d'.shape? j = d.shape? j) :
    d'.Overlap i j ↔ d.Overlap i j := by
  simp only [Overlap, hi, hj]

end Diagram

namespace Surroundings

variable {α : Type} [Scalar α] {around : Surroundings α} {d d' : Diagram α} {i : ShapeId}

/-- A shape of the diagram overlaps the obstacle. -/
def Blocks (around : Surroundings α) (d : Diagram α) (i : ShapeId) : Prop :=
  ∃ s ∈ d.shape? i, ∃ o ∈ around.obstacle, s.Overlaps o

theorem blocks_congr (hi : d'.shape? i = d.shape? i) : around.Blocks d' i ↔ around.Blocks d i := by
  simp only [Blocks, hi]

end Surroundings

namespace Collision

open Diagram

variable {α : Type} [Scalar α] {around : Surroundings α} {bias : α} {root mover id i : ShapeId}
  {d : Diagram α} {p q r : Progress α}

/-! ## The end of a turn -/

/-- The shape overlaps neither the obstacle nor another shape. -/
structure Clear (around : Surroundings α) (d : Diagram α) (id : ShapeId) : Prop where
  obstacle : ¬ around.Blocks d id
  shapes : ∀ i ≠ id, ¬ d.Overlap id i

/-- A shape that can move is clear when there is no overlap to answer. -/
theorem clear_of_answer?_eq_none {p : Pass α} (hlisted : p.progress.diagram.ShapesListed [])
    (hmovable : p.progress.diagram.has Shape.isMovable mover = true)
    (hnone : answer? around bias root mover p = none) :
    Clear around p.progress.diagram mover := by
  obtain ⟨s, hs, hfree⟩ := has_iff.1 hmovable
  have hfixed : ¬ s.isFixed := by simpa [Shape.isMovable] using hfree
  rw [answer?, hs, Option.bind_eq_bind, Option.bind_some, if_neg hfixed] at hnone
  split at hnone
  · cases hnone
  · rename_i hobstacle
    constructor
    · rintro ⟨s', hs', o, ho, hover⟩
      cases hs.symm.trans hs'
      rw [Option.mem_def.1 ho, Option.filter_some, if_pos (decide_eq_true hover)] at hobstacle
      cases hobstacle
    · rintro i hi ⟨s', hs', t, ht, hover⟩
      cases hs.symm.trans hs'
      have hit : (i, t) ∈ p.progress.diagram.shapes := hlisted.mem_shapes_iff.2 ht
      have hfound : (p.progress.diagram.shapes.find? fun x =>
          decide (x.1 ≠ mover ∧ s.Overlaps x.2)).isSome :=
        List.find?_isSome.2 ⟨(i, t), hit, decide_eq_true ⟨hi, hover⟩⟩
      obtain ⟨x, hx⟩ := Option.isSome_iff_exists.1 hfound
      have hanswer := Option.bind_eq_none_iff.1 hnone x hx
      dsimp only at hanswer
      split at hanswer
      · cases hanswer
      · split at hanswer <;> cases hanswer

/-- A shape is cleared until there is no overlap to answer, or until a limit is met. -/
theorem answer?_clear_eq_none (pushes : Nat) {p : Pass α}
    (hcap : (clear around bias root mover pushes p).progress.report.capped = false) :
    answer? around bias root mover (clear around bias root mover pushes p) = none := by
  induction pushes generalizing p with
  | zero => cases hcap
  | succ pushes ih =>
    rw [clear] at hcap ⊢
    split at hcap
    · assumption
    · exact ih hcap

/-! ## Stages -/

theorem alike_answer? {p next : Pass α} (h : answer? around bias root mover p = some next) :
    Alike p.progress.diagram next.progress.diagram :=
  answer?_keeps (fun _ id delta hd => hd.trans (alike_shiftBy _ id delta)) h (.refl _)

/-- The shapes that have been moved are different ones, and all can move. -/
structure Progress.Orderly (root : ShapeId) (p : Progress α) : Prop where
  nodup : (p.moved root).Nodup
  movable : ∀ id ∈ p.moved root, p.diagram.has Shape.isMovable id = true

omit [Scalar α] in
theorem Progress.Orderly.alike {q : Progress α} (h : p.Orderly root)
    (hd : Alike p.diagram q.diagram) (hmoved : q.moved root = p.moved root) : q.Orderly root where
  nodup := hmoved ▸ h.nodup
  movable id hid := by
    rw [has_congr bodily_isMovable (hd.body id)]
    exact h.movable id (hmoved ▸ hid)

theorem orderly_answer? {p next : Pass α} (h : p.progress.Orderly root)
    (hnext : answer? around bias root mover p = some next) : next.progress.Orderly root := by
  have hd := alike_answer? hnext
  obtain ⟨push, rfl⟩ | ⟨push, other, otherPush, d, hpush, hother, ⟨-, hnew, rfl⟩ | ⟨-, rfl⟩⟩ :=
    answer?_cases hnext
  · exact h.alike hd rfl
  · have hmoved : ((p.pushed d).aside other).progress.moved root =
        p.progress.moved root ++ [other] := rfl
    constructor
    · rw [hmoved, List.nodup_append_comm, List.singleton_append, List.nodup_cons]
      exact ⟨hnew, h.nodup⟩
    · intro id hid
      rw [has_congr bodily_isMovable (hd.body id)]
      rcases List.mem_append.1 (hmoved ▸ hid) with hid | hid
      · exact h.movable id hid
      · rw [List.mem_singleton.1 hid]
        exact hother
  · exact h.alike hd rfl

theorem orderly_resolve (h : d.has Shape.isMovable mover = true) :
    (resolve around bias mover d).Orderly mover :=
  clearAll_keeps (P := Progress.Orderly mover) (fun _ _ _ hnext hp => orderly_answer? hp hnext)
    (fun _ hp => hp.alike (.refl _) rfl) _
    ⟨List.nodup_singleton mover, fun _ hid => List.mem_singleton.1 hid ▸ h⟩

/-- The note that a limit was met is not taken back. -/
theorem capped_answer? {p next : Pass α} (h : answer? around bias root mover p = some next) :
    next.progress.report.capped = p.progress.report.capped := by
  obtain ⟨push, rfl⟩ | ⟨push, other, otherPush, d, -, -, ⟨-, -, rfl⟩ | ⟨-, rfl⟩⟩ :=
    answer?_cases h <;> rfl

/-- The shapes that come to wait for their turn while a shape is cleared are those that come to be
reported. -/
theorem exists_followups_clear (pushes : Nat) (p : Pass α) :
    ∃ ids, (clear around bias root mover pushes p).followups = p.followups ++ ids ∧
      (clear around bias root mover pushes p).progress.report.displaced =
        p.progress.report.displaced ++ ids := by
  induction pushes generalizing p with
  | zero => exact ⟨[], by simp [clear], by simp [clear, Progress.cap]⟩
  | succ pushes ih =>
    rw [clear]
    split
    · exact ⟨[], by simp, by simp⟩
    · rename_i next hnext
      obtain ⟨ids, hwait, hreport⟩ := ih next
      rw [hwait, hreport]
      obtain ⟨push, rfl⟩ | ⟨push, other, otherPush, d, -, -, ⟨-, -, rfl⟩ | ⟨-, rfl⟩⟩ :=
        answer?_cases hnext
      · exact ⟨ids, rfl, rfl⟩
      · exact ⟨other :: ids, by simp [Pass.aside, Pass.pushed], by simp [Pass.aside, Pass.pushed]⟩
      · exact ⟨ids, rfl, rfl⟩

/-! ## Turns -/

def turn (around : Surroundings α) (bias : α) (root : ShapeId) (p : Progress α) (id : ShapeId) :
    Progress α :=
  (clear around bias root id around.settings.maxPushes ⟨p, []⟩).progress

/-- Turns of shapes that have been moved, one after the other, lead from `p` to `q`. Each turn comes
with the diagram that it leads to. -/
inductive Turns (around : Surroundings α) (bias : α) (root : ShapeId) :
    Progress α → List (ShapeId × Diagram α) → Progress α → Prop
  | done (p : Progress α) : Turns around bias root p [] p
  | next {p q : Progress α} {id : ShapeId} {ts : List (ShapeId × Diagram α)}
      (hid : id ∈ p.moved root) (rest : Turns around bias root (turn around bias root p id) ts q) :
      Turns around bias root p ((id, (turn around bias root p id).diagram) :: ts) q

variable {ts ts' : List (ShapeId × Diagram α)}

theorem displaced_turn (p : Progress α) (id : ShapeId) :
    (turn around bias root p id).report.displaced = p.report.displaced ++
      (clear around bias root id around.settings.maxPushes ⟨p, []⟩).followups := by
  obtain ⟨ids, hwait, hreport⟩ :=
    @exists_followups_clear _ _ around bias root id around.settings.maxPushes ⟨p, []⟩
  rw [hwait]
  exact hreport

theorem Turns.append (h : Turns around bias root p ts q) (h' : Turns around bias root q ts' r) :
    Turns around bias root p (ts ++ ts') r := by
  induction h with
  | done => exact h'
  | next hid _ ih => exact .next hid (ih h')

theorem alike_turn (p : Progress α) (id : ShapeId) :
    Alike p.diagram (turn around bias root p id).diagram :=
  clear_keeps (P := fun q => Alike p.diagram q.diagram)
    (fun _ _ hnext h => h.trans (alike_answer? hnext)) (fun _ h => h) _ (.refl _)

theorem Turns.alike (h : Turns around bias root p ts q) : Alike p.diagram q.diagram := by
  induction h with
  | done => exact .refl _
  | @next p q id ts hid _ ih => exact (alike_turn p id).trans ih

theorem Turns.reports (hbias : 0 < bias) (h : Turns around bias root p ts q) :
    Reports root p q := by
  induction h with
  | done => exact .refl root _
  | next hid _ ih => exact (reports_clear hbias _ (noted_start hid)).1.trans ih

theorem capped_turn (h : p.report.capped = true) (id : ShapeId) :
    (turn around bias root p id).report.capped = true :=
  clear_keeps (P := fun q => q.report.capped = true)
    (fun _ _ hnext hp => (capped_answer? hnext).trans hp) (fun _ _ => rfl) _ h

theorem Turns.capped (h : Turns around bias root p ts q) (hp : p.report.capped = true) :
    q.report.capped = true := by
  induction h with
  | done => exact hp
  | @next p q id ts hid _ ih => exact ih (capped_turn hp id)

/-- If no limit is met, each turn ends with its shape clear. -/
theorem Turns.clear (h : Turns around bias root p ts q) (hcap : q.report.capped = false)
    (hlisted : p.diagram.ShapesListed [])
    (hmovable : ∀ t ∈ ts, p.diagram.has Shape.isMovable t.1 = true) :
    ∀ t ∈ ts, Clear around t.2 t.1 := by
  induction h with
  | done => simp
  | @next p q id ts hid rest ih =>
    have halike : Alike p.diagram (turn around bias root p id).diagram := alike_turn p id
    have hmovable' : ∀ i, (turn around bias root p id).diagram.has Shape.isMovable i =
        p.diagram.has Shape.isMovable i := fun i => has_congr bodily_isMovable (halike.body i)
    have hcap' : (turn around bias root p id).report.capped = false := by
      by_contra h
      rw [rest.capped (Bool.not_eq_false _ ▸ h)] at hcap
      cases hcap
    intro t ht
    rcases List.mem_cons.1 ht with rfl | ht
    · exact clear_of_answer?_eq_none (halike.shapesListed hlisted)
        ((hmovable' id).trans (hmovable _ List.mem_cons_self)) (answer?_clear_eq_none _ hcap')
    · exact ih hcap (halike.shapesListed hlisted)
        (fun t ht => (hmovable' t.1).trans (hmovable t (List.mem_cons_of_mem _ ht))) t ht

/-! ## Resolutions as sequences of turns -/

/-- The shape has its turn first, and then the shapes that have come to be reported have theirs. -/
structure TurnsFrom (around : Surroundings α) (bias : α) (root : ShapeId) (p : Progress α)
    (id : ShapeId) (ts : List (ShapeId × Diagram α)) (q : Progress α) : Prop where
  turns : Turns around bias root p ((id, (turn around bias root p id).diagram) :: ts) q
  displaced : q.report.displaced.Perm (p.report.displaced ++ ts.map Prod.fst)

open scoped List in
/-- Shapes that wait, and are given their turns one by one with all that follows, have had their
turns in the end, and so have those that have come to be reported. -/
theorem exists_turns_foldl {f : Progress α → ShapeId → Progress α}
    (hcapped : ∀ p id, p.report.capped = true → (f p id).report.capped = true)
    (hf : ∀ p id, id ∈ p.moved root → (f p id).report.capped = false →
      ∃ ts, TurnsFrom around bias root p id ts (f p id)) :
    ∀ (ids : List ShapeId) {p : Progress α}, (∀ id ∈ ids, id ∈ p.moved root) →
      (ids.foldl f p).report.capped = false →
      ∃ ts, Turns around bias root p ts (ids.foldl f p) ∧
        ((ids.foldl f p).report.displaced ++ ids).Perm (p.report.displaced ++ ts.map Prod.fst)
  | [], p, _, _ => ⟨[], .done p, by simp⟩
  | id :: ids, p, hids, hcap => by
    have hfirst : (f p id).report.capped = false := by
      by_contra h
      have hrest := Running.foldl_keeps (P := fun q : Progress α => q.report.capped = true)
        (fun q i hq => hcapped q i hq) ids (Bool.not_eq_false _ ▸ h)
      exact Bool.false_ne_true (hcap.symm.trans hrest)
    obtain ⟨ts, hts, hperm⟩ := hf p id (hids id List.mem_cons_self) hfirst
    have hgrown : ∀ i ∈ ids, i ∈ (f p id).moved root := by
      intro i hi
      rcases List.mem_cons.1 (hids i (List.mem_cons_of_mem id hi)) with rfl | hi
      · exact List.mem_cons_self
      · exact List.mem_cons_of_mem _ (hperm.mem_iff.2 (List.mem_append_left _ hi))
    obtain ⟨ts', hts', hperm'⟩ := exists_turns_foldl hcapped hf ids hgrown hcap
    refine ⟨_, hts.append hts', ?_⟩
    calc (ids.foldl f (f p id)).report.displaced ++ id :: ids
      _ ~ id :: ((ids.foldl f (f p id)).report.displaced ++ ids) := List.perm_middle
      _ ~ id :: ((f p id).report.displaced ++ ts'.map Prod.fst) := hperm'.cons id
      _ ~ id :: (p.report.displaced ++ ts.map Prod.fst ++ ts'.map Prod.fst) :=
          (hperm.append_right _).cons id
      _ = id :: (p.report.displaced ++ (ts ++ ts').map Prod.fst) := by simp
      _ ~ p.report.displaced ++ id :: (ts ++ ts').map Prod.fst := List.perm_middle.symm

theorem capped_clearAll (depth : Nat) (id : ShapeId) (h : p.report.capped = true) :
    (clearAll around bias root depth id p).report.capped = true :=
  clearAll_keeps (P := fun q => q.report.capped = true)
    (fun _ _ _ hnext hp => (capped_answer? hnext).trans hp) (fun _ _ => rfl) _ h

open scoped List in
/-- A shape that is cleared with all that follows has its turn first. Those that have come to be
reported have had theirs, unless a limit was met. -/
theorem exists_turns_clearAll (depth : Nat) (hmover : mover ∈ p.moved root)
    (hcap : (clearAll around bias root depth mover p).report.capped = false) :
    ∃ ts, TurnsFrom around bias root p mover ts (clearAll around bias root depth mover p) := by
  have hreport := @displaced_turn _ _ around bias root p mover
  induction depth generalizing mover p with
  | zero =>
    rw [clearAll] at hcap ⊢
    split at hcap
    · rename_i hempty
      rw [if_pos hempty]
      refine ⟨[], .next hmover (.done _), ?_⟩
      rw [List.isEmpty_iff.1 hempty] at hreport
      exact hreport ▸ .refl _
    · cases hcap
  | succ depth ih =>
    rw [clearAll] at hcap ⊢
    generalize (clear around bias root mover around.settings.maxPushes ⟨p, []⟩).followups = ids
      at hcap hreport ⊢
    -- the shapes that wait have been reported in the turn of the mover, which is why they may have
    -- turns of their own
    have hids : ∀ i ∈ ids, i ∈ (turn around bias root p mover).moved root := fun i hi =>
      List.mem_cons_of_mem _ (hreport ▸ List.mem_append_right _ hi)
    obtain ⟨ts, hts, hperm⟩ := exists_turns_foldl (fun q i => capped_clearAll depth i)
      (fun q i hi hq => ih hi hq (displaced_turn q i)) ids hids hcap
    refine ⟨ts, .next hmover hts, (List.perm_append_right_iff ids).1 (hperm.trans ?_)⟩
    calc (turn around bias root p mover).report.displaced ++ ts.map Prod.fst
      _ = p.report.displaced ++ (ids ++ ts.map Prod.fst) := by rw [hreport, List.append_assoc]
      _ ~ p.report.displaced ++ (ts.map Prod.fst ++ ids) := List.perm_append_comm.append_left _
      _ = p.report.displaced ++ ts.map Prod.fst ++ ids := (List.append_assoc _ _ _).symm

/-! ## After a turn -/

/-- No turn that comes after that of the shape has moved it. -/
def Rests (ts : List (ShapeId × Diagram α)) (id : ShapeId) : Prop :=
  ∀ before after e, ts = before ++ (id, e) :: after → ∀ t ∈ after, t.2.shape? id = e.shape? id

theorem Turns.of_append (h : Turns around bias root p (ts ++ ts') r) :
    ∃ q, Turns around bias root p ts q ∧ Turns around bias root q ts' r := by
  induction ts generalizing p with
  | nil => exact ⟨p, .done p, h⟩
  | cons t ts ih =>
    cases h with
    | next hid rest =>
      obtain ⟨q, hq, hr⟩ := ih rest
      exact ⟨q, .next hid hq, hr⟩

/-- The diagram in the end is the one that the last turn leads to. -/
theorem Turns.diagram_eq {t : ShapeId × Diagram α} (h : Turns around bias root p (t :: ts) q) :
    q.diagram = t.2 ∨ ∃ t' ∈ ts, q.diagram = t'.2 := by
  induction ts generalizing p t with
  | nil =>
    cases h with
    | next _ rest =>
      cases rest
      exact .inl rfl
  | cons t' ts ih =>
    cases h with
    | next _ rest =>
      rcases ih rest with hq | ⟨t'', ht'', hq⟩
      · exact .inr ⟨t', List.mem_cons_self, hq⟩
      · exact .inr ⟨t'', List.mem_cons_of_mem t' ht'', hq⟩

section Rests

variable {before after : List (ShapeId × Diagram α)} {e : Diagram α}

/-- A shape that is left alone is in the end where its turn put it. -/
theorem Rests.shape?_eq (hrests : Rests (before ++ (id, e) :: after) id)
    (h : Turns around bias root p (before ++ (id, e) :: after) q) :
    q.diagram.shape? id = e.shape? id := by
  obtain ⟨m, -, hm⟩ := h.of_append
  rcases hm.diagram_eq with hq | ⟨t, ht, hq⟩
  · rw [hq]
  · rw [hq]
    exact hrests before after e rfl t ht

/-- Of two shapes that are left alone, the later one has found the earlier one where it is. -/
theorem Rests.not_overlap (hrests : Rests (before ++ (id, e) :: after) id)
    (hrests' : Rests (before ++ (id, e) :: after) i)
    (h : Turns around bias root p (before ++ (id, e) :: after) q)
    (hclear : ∀ t ∈ after, Clear around t.2 t.1) (hi : i ∈ after.map Prod.fst) (hne : i ≠ id) :
    ¬ q.diagram.Overlap i id := by
  obtain ⟨⟨i, e'⟩, ht, rfl⟩ := List.mem_map.1 hi
  obtain ⟨b, a, hafter⟩ := List.append_of_mem ht
  have hsplit : before ++ (id, e) :: after = (before ++ (id, e) :: b) ++ (i, e') :: a := by
    rw [hafter, List.append_assoc, List.cons_append]
  have hid : q.diagram.shape? id = e'.shape? id :=
    (hrests.shape?_eq h).trans (hrests before after e rfl _ ht).symm
  have hother : q.diagram.shape? i = e'.shape? i := by
    rw [hsplit] at h hrests'
    exact hrests'.shape?_eq h
  rw [overlap_congr hother hid]
  exact (hclear _ ht).shapes id hne.symm

/-- A shape without a turn is in the end where it was after any turn. -/
theorem Turns.shape?_eq (h : Turns around bias root p (before ++ (id, e) :: after) q)
    (hstill : after = [] ∨ 0 < bias ∧ i ∉ q.moved root) :
    q.diagram.shape? i = e.shape? i := by
  obtain ⟨m, -, hm⟩ := h.of_append
  cases hm with
  | next _ rest =>
    rcases hstill with rfl | ⟨hbias, hi⟩
    · cases rest
      rfl
    · exact (rest.reports hbias).still i hi

/-- A shape that is left alone after its turn is clear in the end of all shapes that are left alone
after theirs, and of all that have none. -/
theorem Rests.clear (hrests : Rests (before ++ (id, e) :: after) id)
    (h : Turns around bias root p (before ++ (id, e) :: after) q)
    (hclear : ∀ t ∈ before ++ (id, e) :: after, Clear around t.2 t.1)
    (hstill : ∀ i ∉ (before ++ (id, e) :: after).map Prod.fst,
      after = [] ∨ 0 < bias ∧ i ∉ q.moved root) :
    ¬ around.Blocks q.diagram id ∧ ∀ i ≠ id, Rests (before ++ (id, e) :: after) i →
      ¬ q.diagram.Overlap id i := by
  have hid := hrests.shape?_eq h
  have hend : Clear around e id := hclear (id, e) (by simp)
  refine ⟨(Surroundings.blocks_congr hid).not.2 hend.obstacle, fun i hne hrests' => ?_⟩
  by_cases hi : i ∈ (before ++ (id, e) :: after).map Prod.fst
  · have hi' : i ∈ before.map Prod.fst ∨ i ∈ after.map Prod.fst := by
      simpa [hne] using hi
    -- whichever of the two has the later turn, that turn has cleared it of the other
    rcases hi' with hi | hi
    · obtain ⟨⟨i, e'⟩, ht, rfl⟩ := List.mem_map.1 hi
      obtain ⟨b, a, rfl⟩ := List.append_of_mem ht
      rw [List.append_assoc, List.cons_append] at h hrests hrests' hclear
      exact hrests'.not_overlap hrests h (fun t ht => hclear t (by simp [ht])) (by simp) hne.symm
    · exact fun hover => hrests.not_overlap hrests' h (fun t ht => hclear t (by simp [ht])) hi hne
        hover.symm
  · rw [overlap_congr hid (h.shape?_eq (hstill i hi))]
    exact hend.shapes i hne

end Rests

/-- A resolution that meets no limit gives a turn to the shape that it is for and then one to each
shape that it reports, and each turn ends with its shape clear of everything. Such a shape overlaps
the obstacle in the end only if a later turn has moved it, and it overlaps another shape only if one
of the two has been moved by a turn later than its own. -/
theorem exists_turns_of_not_capped (hd : d.Reachable)
    (hmover : d.has Shape.isMovable mover = true)
    (hcap : (resolve around bias mover d).report.capped = false) :
    ∃ e ts, Turns around bias mover ⟨d, ⟨0, [], false⟩⟩ ((mover, e) :: ts)
        (resolve around bias mover d) ∧
      (ts.map Prod.fst).Perm (resolve around bias mover d).report.displaced ∧
      (mover :: (resolve around bias mover d).report.displaced).Nodup ∧
      (∀ t ∈ (mover, e) :: ts, Clear around t.2 t.1) ∧
      ∀ id ∈ mover :: (resolve around bias mover d).report.displaced,
        Rests ((mover, e) :: ts) id →
          ¬ around.Blocks (resolve around bias mover d).diagram id ∧
          ∀ i ≠ id, Rests ((mover, e) :: ts) i →
            ¬ (resolve around bias mover d).diagram.Overlap id i := by
  obtain ⟨ts, hturns, hperm⟩ := exists_turns_clearAll (p := ⟨d, ⟨0, [], false⟩⟩) _
    List.mem_cons_self hcap
  change Turns around bias mover _ _ (resolve around bias mover d) at hturns
  change (resolve around bias mover d).report.displaced.Perm (ts.map Prod.fst) at hperm
  generalize (turn around bias mover _ mover).diagram = e at hturns
  have horderly : (resolve around bias mover d).Orderly mover := orderly_resolve hmover
  have hmovable : ∀ i ∈ mover :: ts.map Prod.fst, d.has Shape.isMovable i = true := by
    intro i hi
    rw [← has_congr bodily_isMovable (hturns.alike.body i)]
    exact horderly.movable i ((hperm.cons mover).mem_iff.2 hi)
  have hclear := hturns.clear hcap hd.sound.toShapesListed
    fun t ht => hmovable t.1 (List.mem_map_of_mem (f := Prod.fst) ht)
  refine ⟨e, ts, hturns, hperm.symm, horderly.nodup, hclear, fun id hid hrests => ?_⟩
  have hturn : id ∈ ((mover, e) :: ts).map Prod.fst := (hperm.cons mover).mem_iff.1 hid
  obtain ⟨⟨id, e'⟩, ht, rfl⟩ := List.mem_map.1 hturn
  obtain ⟨before, after, hsplit⟩ := List.append_of_mem ht
  rw [hsplit] at hturns hclear hrests ⊢
  refine hrests.clear hturns hclear fun i hi => ?_
  rw [← hsplit] at hi
  by_cases hbias : 0 < bias
  · exact .inr ⟨hbias, fun hmem => hi ((hperm.cons mover).mem_iff.1 hmem)⟩
  -- without a share nothing is reported, so the mover has the only turn
  · have hnone : ts = [] := by
      rw [displaced_resolve_of_not_pos hbias] at hperm
      exact List.map_eq_nil_iff.1 hperm.nil_eq.symm
    subst hnone
    left
    cases before with
    | nil => exact (List.cons.inj hsplit).2.symm
    | cons t before => cases before <;> cases hsplit

/-- Four steps in a row. The first one overlaps the second, and barely misses the last. -/
def crowd : Diagram Double :=
  blank.after
    [.addShape (.step "a" [⟨"x", none⟩] [⟨"y", none⟩] ⟨(300 : Nat), (300 : Nat)⟩),
     .addShape (.step "b" [⟨"x", none⟩] [⟨"y", none⟩] ⟨(377 : Nat), (300 : Nat)⟩),
     .addShape (.step "c" [⟨"x", none⟩] [⟨"y", none⟩] ⟨(458 : Nat), (300 : Nat)⟩),
     .addShape (.step "d" [⟨"x", none⟩] [⟨"y", none⟩] ⟨(217 : Nat), (300 : Nat)⟩)]

theorem reachable_crowd : crowd.Reachable :=
  ⟨_, by simp [Change.Built, Shape.Built.step], rfl⟩

theorem report_resolve_crowd :
    (resolve ⟨.standard, none⟩ (Scalar.half 1) ⟨0⟩ crowd).report = ⟨3, [⟨1⟩, ⟨2⟩], false⟩ := by
  decide +kernel

theorem exists_turns_crowd :
    (crowd.Reachable ∧ crowd.has Shape.isMovable ⟨0⟩ = true ∧
      (resolve ⟨.standard, none⟩ (Scalar.half 1) ⟨0⟩ crowd).report.capped = false) ∧
    ∃ e ts, Turns ⟨.standard, none⟩ (Scalar.half 1) ⟨0⟩ ⟨crowd, ⟨0, [], false⟩⟩ ((⟨0⟩, e) :: ts)
        (resolve ⟨.standard, none⟩ (Scalar.half 1) ⟨0⟩ crowd) ∧
      (ts.map Prod.fst).Perm [⟨1⟩, ⟨2⟩] ∧
      ∀ t ∈ (⟨0⟩, e) :: ts, Clear ⟨.standard, none⟩ t.2 t.1 := by
  have hmover : crowd.has Shape.isMovable ⟨0⟩ = true := by decide +kernel
  have hcap : (resolve ⟨.standard, none⟩ (Scalar.half 1) ⟨0⟩ crowd).report.capped = false := by
    rw [report_resolve_crowd]
  obtain ⟨e, ts, hturns, hperm, -, hclear, -⟩ :=
    exists_turns_of_not_capped reachable_crowd hmover hcap
  rw [report_resolve_crowd] at hperm
  exact ⟨⟨reachable_crowd, hmover, hcap⟩, e, ts, hturns, hperm, hclear⟩

/-- The first step is clear after its turn, but the turn of the second pushes it on to the last one,
and that is the end of it: the first step has no other turn. -/
theorem overlap_resolve_crowd :
    (crowd.Reachable ∧ crowd.has Shape.isMovable ⟨0⟩ = true) ∧
    (resolve ⟨.standard, none⟩ (Scalar.half 1) ⟨0⟩ crowd).report = ⟨3, [⟨1⟩, ⟨2⟩], false⟩ ∧
    (resolve ⟨.standard, none⟩ (Scalar.half 1) ⟨0⟩ crowd).diagram.Overlap ⟨0⟩ ⟨3⟩ := by
  refine ⟨⟨reachable_crowd, ?_⟩, report_resolve_crowd, ?_⟩
  · decide +kernel
  · decide +kernel

end Collision

end Patchbay
