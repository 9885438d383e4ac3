import Patchbay.Proofs.Diagram.Histories
import Patchbay.Proofs.Diagram.Paths

/-!
# The search for loops

A cable must not lead back to where it came from, so before one is laid the shapes downstream of its
end are searched for its source. `Searches` is that search as a loop without a measure: all
successors of a shape that has not been looked at go on the stack, looked at or not, and only what
comes off the stack is checked.

The loop ends (`exists_searches`): each of its rounds takes one shape off the stack, and shapes come
onto the stack along cables, each cable being followed once at most. Its answer is right
(`Searches.answer_iff`), so cables are refused just when they would close a loop.
-/

namespace Patchbay

namespace Diagram

open Relation

variable {α : Type} {d : Diagram α} {target a b : ShapeId} {n m : Nat}
  {seen stack : List ShapeId} {answer answer' : Bool}

/-! ## The loop -/

/-- From what has been looked at and the stack, the search takes that many rounds and gives an
answer. -/
inductive Searches (d : Diagram α) (target : ShapeId) :
    Nat → List ShapeId → List ShapeId → Bool → Prop
  | exhausted {seen : List ShapeId} : Searches d target 0 seen [] false
  | found {seen rest : List ShapeId} : Searches d target 1 seen (target :: rest) true
  | again {n : Nat} {current : ShapeId} {seen rest : List ShapeId} {answer : Bool} :
      current ≠ target → current ∈ seen → Searches d target n seen rest answer →
      Searches d target (n + 1) seen (current :: rest) answer
  | look {n : Nat} {current : ShapeId} {seen rest : List ShapeId} {answer : Bool} :
      current ≠ target → current ∉ seen →
      Searches d target n (current :: seen) ((d.successors current).reverse ++ rest) answer →
      Searches d target (n + 1) seen (current :: rest) answer

/-- A search has one outcome. -/
theorem Searches.unique (h : d.Searches target n seen stack answer)
    (h' : d.Searches target m seen stack answer') : m = n ∧ answer' = answer := by
  induction h generalizing m answer' with
  | exhausted =>
    cases h' with
    | exhausted => exact ⟨rfl, rfl⟩
  | found =>
    cases h' with
    | found => exact ⟨rfl, rfl⟩
    | again hne => exact absurd rfl hne
    | look hne => exact absurd rfl hne
  | again hne hseen _ ih =>
    cases h' with
    | found => exact absurd rfl hne
    | again _ _ hrest =>
      obtain ⟨rfl, rfl⟩ := ih hrest
      exact ⟨rfl, rfl⟩
    | look _ hnew => exact absurd hseen hnew
  | look hne hnew _ ih =>
    cases h' with
    | found => exact absurd rfl hne
    | again _ hseen => exact absurd hseen hnew
    | look _ _ hrest =>
      obtain ⟨rfl, rfl⟩ := ih hrest
      exact ⟨rfl, rfl⟩

/-! ## Its answer -/

/-- The answer says whether a path leads to the target from the stack. -/
theorem Searches.answer_iff (hd : d.Wired) (h : d.Searches target n seen stack answer)
    (hex : d.Explored target seen stack) :
    answer = true ↔ ∃ x ∈ stack, ReflTransGen d.Feeds x target := by
  induction h with
  | exhausted => simp
  | found => exact ⟨fun _ => ⟨target, List.mem_cons_self, .refl⟩, fun _ => rfl⟩
  | again hne hseen _ ih =>
    obtain ⟨hex', hpaths⟩ := hex.skip hd hne (.inl hseen)
    rw [ih hex', hpaths]
  | @look _ current _ rest _ hne _ _ ih =>
    have hnext : ∀ x, x ∈ (d.successors current).reverse ++ rest ↔
        x ∈ d.successors current ∨ x ∈ rest := fun x => by
      rw [List.mem_append, List.mem_reverse]
    obtain ⟨hex', hpaths⟩ := hex.look hd hne hnext
    rw [ih hex', hpaths]

/-- A search that starts at a shape finds what is downstream of it. -/
theorem Searches.eq_reaches (hd : d.Wired) (h : d.Searches b n [] [a] answer) :
    answer = d.reaches a b := by
  have hanswer := h.answer_iff hd fun x hx => absurd hx List.not_mem_nil
  rw [Bool.eq_iff_iff, hanswer, reaches_iff hd]
  simp

/-! ## Its end -/

/-- The number of cables that start at shapes with a property. -/
def cablesFrom (d : Diagram α) (p : ShapeId → Bool) : Nat :=
  d.cableOrder.countP fun c => (d.ends? c).any fun e => p e.1.shape

/-- The cables of a shape that is looked at need not be followed again. -/
theorem cablesFrom_look (d : Diagram α) {current : ShapeId} (hnew : current ∉ seen) :
    d.cablesFrom (· = current) + d.cablesFrom (· ∉ current :: seen) ≤ d.cablesFrom (· ∉ seen) := by
  unfold cablesFrom
  rw [List.countP_eq_countP_filter_add _ (fun c => (d.ends? c).any fun e => decide (e.1.shape ∉ seen))
    (fun c => (d.ends? c).any fun e => decide (e.1.shape = current)), List.countP_filter,
    List.countP_filter]
  refine Nat.add_le_add (List.countP_mono_left fun c _ hc => ?_)
    (List.countP_mono_left fun c _ hc => ?_)
  · cases he : d.ends? c with
    | none => simp [he] at hc
    | some e =>
      have hcurrent : e.1.shape = current := by simpa [he] using hc
      simp [hcurrent, hnew]
  · cases he : d.ends? c with
    | none => simp [he] at hc
    | some e =>
      obtain ⟨hne, hunseen⟩ : e.1.shape ≠ current ∧ e.1.shape ∉ seen := by simpa [he] using hc
      simp [hne, hunseen]

/-- To each successor leads a cable of its own. -/
theorem length_successors_le (hd : d.Wired) (hl : d.CablesListed) (a : ShapeId) :
    (d.successors a).length ≤ d.cablesFrom (· = a) := by
  have hsub : d.successors a ⊆
      (d.cableOrder.filter fun c => (d.ends? c).any fun e => decide (e.1.shape = a)).filterMap
        fun c => (d.ends? c).bind fun e => e.2.map (·.shape) := by
    intro x hx
    obtain ⟨c, s, t, hc, hs, ht⟩ := (mem_successors_iff hd).1 hx
    have hlisted : c ∈ d.cableOrder := (hl.mem_cableOrder c).2 (by rw [hc]; rfl)
    refine List.mem_filterMap.2 ⟨c, List.mem_filter.2 ⟨hlisted, ?_⟩, ?_⟩
    · simp [hc, hs]
    · simp [hc, ht]
  calc (d.successors a).length
    _ ≤ _ := (nodup_successors d a).length_le_of_subset hsub
    _ ≤ _ := List.length_filterMap_le _ _
    _ = d.cablesFrom (· = a) := List.countP_eq_length_filter.symm

/-- **The search ends**, after no more rounds than there are shapes on the stack and cables that
start at shapes not looked at. -/
theorem exists_searches (hd : d.Wired) (hl : d.CablesListed) (target : ShapeId)
    (seen stack : List ShapeId) :
    ∃ n ≤ stack.length + d.cablesFrom (· ∉ seen), ∃ answer,
      d.Searches target n seen stack answer := by
  induction hsize : stack.length + d.cablesFrom (· ∉ seen) using Nat.strongRecOn generalizing
    seen stack with
  | _ size ih =>
    cases stack with
    | nil => exact ⟨0, Nat.zero_le _, false, .exhausted⟩
    | cons current rest =>
      rw [List.length_cons] at hsize
      by_cases hfound : current = target
      · subst hfound
        exact ⟨1, by omega, true, .found⟩
      by_cases hseen : current ∈ seen
      · obtain ⟨n, hn, answer, hrest⟩ :=
          ih (rest.length + d.cablesFrom (· ∉ seen)) (by omega) seen rest rfl
        exact ⟨n + 1, by omega, answer, .again hfound hseen hrest⟩
      -- the successors are no more than the cables that need not be followed again
      · have hsuccessors := length_successors_le hd hl current
        have hcables := cablesFrom_look d hseen
        have hnext : ((d.successors current).reverse ++ rest).length =
            (d.successors current).length + rest.length := by
          rw [List.length_append, List.length_reverse]
        obtain ⟨n, hn, answer, hrest⟩ := ih _ (by omega) (current :: seen)
          ((d.successors current).reverse ++ rest) rfl
        exact ⟨n + 1, by omega, answer, .look hfound hseen hrest⟩

/-! ## Loops -/

section

variable [Scalar α] {s t : Terminal}

theorem feeds_join (hab : d.Feeds a b) : (d.join s t).Feeds a b := by
  obtain ⟨c, u, v, hc, ha, hb⟩ := hab
  have hne : c ≠ d.nextCable := by
    intro hnew
    rw [hnew, ends?_nextCable] at hc
    cases hc
  exact ⟨c, u, v, by rw [ends?_join, if_neg hne, hc], ha, hb⟩

/-- A cable closes a loop just when its source lies downstream of its end. -/
theorem acyclic_join_iff (hd : d.Wired) :
    (d.join s t).Acyclic ↔ ¬ ReflTransGen d.Feeds t.shape s.shape := by
  apply Iff.intro
  · intro hacyclic hpath
    have hnew : (d.join s t).Feeds s.shape t.shape :=
      ⟨d.nextCable, s, t, by rw [ends?_join, if_pos rfl], rfl, rfl⟩
    have hback : ReflTransGen (d.join s t).Feeds t.shape s.shape :=
      ReflTransGen.mono (fun a b => feeds_join) _ _ hpath
    exact hacyclic s.shape (.head' hnew hback)
  · intro hno
    exact hd.acyclic.add (fun a b => feeds_of_feeds_join) hno

end

end Diagram

namespace Edit

open Diagram Relation

variable {α : Type} [Scalar α] {d : Diagram α}

/-- Between magnets that fit, the only objection is a loop. -/
theorem joinFault?_of_fits (hd : d.Wired) {s t : Terminal} {m n : Magnet α}
    (hs : s.side = .output) (ht : t.side = .input) (hm : d.magnet? s = some m)
    (hn : d.magnet? t = some n) (hempty : n.cables = []) (haccepts : m.accepts n = true) :
    ((d.join s t).Acyclic → joinFault? d s t = none) ∧
      (¬ (d.join s t).Acyclic → joinFault? d s t =
        some (.wouldLoop (labelOf d s.shape) (labelOf d t.shape))) := by
  rw [acyclic_join_iff hd]
  apply And.intro
  · intro hno
    exact (joinFault?_eq_none_iff hd).2 ⟨hs, ht, ⟨m, n, hm, hn, hempty, haccepts⟩, hno⟩
  · intro hloop
    have hreaches : d.reaches t.shape s.shape = true := (reaches_iff hd).2 (not_not.1 hloop)
    simp [joinFault?, hs, ht, hm, hn, Magnet.isConnected, hempty, haccepts, hreaches]

/-- **The check for loops is exact.** In every reachable diagram the search for a shape ends, and
says whether the shape is the one it starts from or lies downstream of it. So a cable between an
output magnet and a free input magnet that accepts it is refused just when it would close a loop,
and laid in every other case. -/
theorem connect_acyclic_iff (h : d.Reachable) :
    (∀ a b,
      (∃ n ≤ d.cableOrder.length + 1, ∀ m answer,
        d.Searches b m [] [a] answer ↔ m = n ∧ answer = d.reaches a b) ∧
      (d.reaches a b = true ↔ ReflTransGen d.Feeds a b)) ∧
    ∀ (s t : Terminal) (m n : Magnet α) (v w : Shape α),
      s.side = .output → t.side = .input → d.magnet? s = some m → d.magnet? t = some n →
      n.cables = [] → m.accepts n = true →
      d.shape? s.shape = some v → d.shape? t.shape = some w →
      ((connect s t).run d = (.error (.wouldLoop v.label w.label), d) ↔
        ¬ (d.join s t).Acyclic) ∧
      ((connect s t).run d = (.ok d.nextCable, d.join s t) ↔ (d.join s t).Acyclic) := by
  have hd : d.Wired := h.sound.toWired
  refine ⟨fun a b => ⟨?_, reaches_iff hd⟩, fun s t m n v w hs ht hm hn hempty haccepts hv hw => ?_⟩
  · obtain ⟨n, hn, answer, hsearch⟩ := exists_searches hd h.sound.toCablesListed b [] [a]
    have hcables : d.cablesFrom (· ∉ []) ≤ d.cableOrder.length := List.countP_le_length
    refine ⟨n, ?_, fun m answer' => ?_⟩
    · rw [List.length_singleton] at hn
      omega
    · have hanswer : answer = d.reaches a b := hsearch.eq_reaches hd
      apply Iff.intro
      · intro hother
        obtain ⟨hm, hsame⟩ := hsearch.unique hother
        exact ⟨hm, hsame.trans hanswer⟩
      · intro hsame
        rw [hsame.1, hsame.2, ← hanswer]
        exact hsearch
  · obtain ⟨hlaid, hrefused⟩ := joinFault?_of_fits hd hs ht hm hn hempty haccepts
    have hlabels : labelOf d s.shape = v.label ∧ labelOf d t.shape = w.label := by
      simp [labelOf, hv, hw]
    rw [run_connect]
    by_cases hacyclic : (d.join s t).Acyclic
    · rw [hlaid hacyclic]
      refine ⟨iff_of_false (fun hrun => ?_) (not_not_intro hacyclic), iff_of_true rfl hacyclic⟩
      cases hrun
    · rw [hrefused hacyclic, hlabels.1, hlabels.2]
      refine ⟨iff_of_true rfl hacyclic, iff_of_false (fun hrun => ?_) hacyclic⟩
      cases hrun

/-- A step that feeds another one, beside an output. -/
def chainedSteps : List (Change Double) :=
  [.addShape (.step "f" [⟨"x", none⟩] [⟨"y", none⟩] Point.origin),
   .addShape (.step "g" [⟨"x", none⟩] [⟨"y", none⟩] Point.origin),
   .addShape (.output "o" none Point.origin),
   .connect ⟨⟨0⟩, .output, 0⟩ ⟨⟨1⟩, .input, 0⟩]

theorem after_chainedSteps : blank.after chainedSteps =
    (blank.after (chainedSteps.take 3)).join ⟨⟨0⟩, .output, 0⟩ ⟨⟨1⟩, .input, 0⟩ := by
  have hconnect : (connect ⟨⟨0⟩, .output, 0⟩ ⟨⟨1⟩, .input, 0⟩).run
      (blank.after (chainedSteps.take 3)) = (.ok ⟨0⟩,
        (blank.after (chainedSteps.take 3)).join ⟨⟨0⟩, .output, 0⟩ ⟨⟨1⟩, .input, 0⟩) :=
    run_connect_of_successors_eq_nil rfl rfl rfl rfl rfl rfl (by decide) rfl
  change ((blank.after (chainedSteps.take 3)).run
    (.connect ⟨⟨0⟩, .output, 0⟩ ⟨⟨1⟩, .input, 0⟩)).2 = _
  rw [run_snd]
  exact congrArg Prod.snd hconnect

/-- A cable back to the first step is refused, and one to the output is laid. -/
theorem connect_acyclic_chainedSteps :
    (blank.after chainedSteps).Reachable ∧
      (blank.after chainedSteps).reaches ⟨0⟩ ⟨1⟩ = true ∧
      (connect ⟨⟨1⟩, .output, 0⟩ ⟨⟨0⟩, .input, 0⟩).run (blank.after chainedSteps) =
        (.error (.wouldLoop "g" "f"), blank.after chainedSteps) ∧
      (connect ⟨⟨1⟩, .output, 0⟩ ⟨⟨2⟩, .input, 0⟩).run (blank.after chainedSteps) =
        (.ok ⟨1⟩, (blank.after chainedSteps).join ⟨⟨1⟩, .output, 0⟩ ⟨⟨2⟩, .input, 0⟩) := by
  have hreach : (blank.after chainedSteps).Reachable := by
    refine ⟨_, ?_, rfl⟩
    simp [chainedSteps, Change.Built, Shape.Built.step, Shape.Built.output]
  rw [after_chainedSteps] at hreach ⊢
  have hd := hreach.sound.toWired
  obtain ⟨hsearch, hconnect⟩ := connect_acyclic_iff hreach
  have hback := hconnect ⟨⟨1⟩, .output, 0⟩ ⟨⟨0⟩, .input, 0⟩ _ _ _ _ rfl rfl rfl rfl rfl rfl rfl rfl
  have hon := hconnect ⟨⟨1⟩, .output, 0⟩ ⟨⟨2⟩, .input, 0⟩ _ _ _ _ rfl rfl rfl rfl rfl rfl rfl rfl
  have hreaches := (hsearch ⟨0⟩ ⟨1⟩).2.2 (.single ⟨⟨0⟩, _, _, rfl, rfl, rfl⟩)
  refine ⟨hreach, hreaches, hback.1.2 fun hacyclic => ?_, hon.2.2 ?_⟩
  · exact (acyclic_join_iff hd).1 hacyclic ((hsearch ⟨0⟩ ⟨1⟩).2.1 hreaches)
  · rw [acyclic_join_iff hd, ← (hsearch ⟨2⟩ ⟨1⟩).2, reaches_of_successors_eq_nil (by decide) rfl]
    exact Bool.false_ne_true

end Edit

end Patchbay
