import Patchbay.Proofs.Diagram.Histories

/-!
# Landing a cable that was started

A cable is laid in one go, or it is started loose at an output magnet and landed afterwards. The
loose cable is in the way of nothing: it closes no path, because it has only one end, it occupies no
input magnet, and labels and datatypes are as they were. So the check says of landing what it said
of joining before the cable was started (`joinFault?_start`), and the two ways lead to the same
diagram or to the same refusal (`attach_agrees_connect`).
-/

namespace Patchbay

namespace Diagram

variable {α : Type} {d : Diagram α}

theorem reaches_start (h : d.Wired) {s : Terminal} (p : Point α) (hlive : (d.magnet? s).isSome)
    (hside : s.side = .output) (a b : ShapeId) :
    (d.start s p).reaches a b = d.reaches a b := by
  have hfeeds : (d.start s p).Feeds = d.Feeds :=
    funext₂ fun a b => propext (feeds_start d s p a b)
  rw [Bool.eq_iff_iff, reaches_iff (h.start p hlive hside), reaches_iff h, hfeeds]

end Diagram

namespace Edit

open Diagram

variable {α : Type} {d : Diagram α}

theorem labelOf_start (d : Diagram α) (s : Terminal) (p : Point α) (i : ShapeId) :
    labelOf (d.start s p) i = labelOf d i := by
  have hlabel : ∀ d : Diagram α, labelOf d i = ((d.body? i).map Shape.Body.label).getD "" := by
    intro d
    rw [labelOf, body?, Option.map_map]
    rfl
  rw [hlabel, hlabel, body?_start]

/-- What may be said against joining two magnets may be said just so when a loose cable has been
started at the one. -/
theorem joinFault?_start (h : d.Wired) {s : Terminal} (p : Point α)
    (hlive : (d.magnet? s).isSome) (hside : s.side = .output) (t : Terminal) :
    joinFault? (d.start s p) s t = joinFault? d s t := by
  unfold joinFault?
  by_cases ht : t.side = .input
  · obtain ⟨m, hm⟩ := Option.isSome_iff_exists.1 hlive
    have hne : s ≠ t := by
      rintro rfl
      rw [hside] at ht
      cases ht
    have hs : (d.start s p).magnet? s = some (m.hook d.nextCable) := by
      rw [magnet?_start, if_pos rfl, hm, Option.map_some]
    have hfree : (d.start s p).magnet? t = d.magnet? t := by
      rw [magnet?_start, if_neg hne]
    have haccepts : ∀ n : Magnet α, (m.hook d.nextCable).accepts n = m.accepts n :=
      fun n => Magnet.accepts_congr rfl rfl
    rw [hs, hfree, hm]
    cases d.magnet? t with
    | none => rfl
    | some n =>
      simp only [haccepts, reaches_start h p hlive hside, labelOf_start]
      rfl
  · rw [if_pos (.inr ht), if_pos (.inr ht)]

/-- A cable has been started just when there is an output magnet for it. -/
theorem run_startCable_eq_ok [Scalar α] {s : Terminal} {c : CableId} {d' : Diagram α}
    (hstart : (startCable s).run d = (.ok c, d')) :
    s.side = .output ∧ (d.magnet? s).isSome ∧ c = d.nextCable ∧ ∃ p, d' = d.start s p := by
  rw [run_startCable] at hstart
  split at hstart
  · cases hstart
  · rename_i hside
    split at hstart
    · rename_i p hp
      cases hstart
      exact ⟨Decidable.not_not.1 hside, isSome_magnet?_of_magnetPosition? hp, rfl, p, rfl⟩
    · cases hstart

variable [Scalar α]

/-- A cable that has been started lands just where it could have been laid in one go, and gives the
same diagram then. Where it may not, both are refused for the same reason. -/
theorem attach_agrees_connect (h : d.Reachable) {s : Terminal} {c : CableId} {d₁ : Diagram α}
    (hstart : (startCable s).run d = (.ok c, d₁)) (t : Terminal) :
    (d.Landable s t ∧ ∃ d₂, (attach c t).run d₁ = (.ok (), d₂) ∧
      (connect s t).run d = (.ok c, d₂) ∧ d₂.ends? c = some (s, some t)) ∨
    (¬ d.Landable s t ∧ ∃ e, (attach c t).run d₁ = (.error e, d₁) ∧
      (connect s t).run d = (.error e, d)) := by
  have hwired := h.sound.toWired
  obtain ⟨hside, hlive, rfl, p, rfl⟩ := run_startCable_eq_ok hstart
  have hends : (d.start s p).ends? d.nextCable = some (s, none) := by
    rw [ends?_start, if_pos rfl]
  rw [run_attach_of_loose hends, run_connect, joinFault?_start hwired p hlive hside]
  cases hfault : joinFault? d s t with
  | none =>
    left
    refine ⟨((joinFault?_eq_none_iff hwired).1 hfault).2, d.join s t, ?_, rfl, ?_⟩
    · rw [join_eq_land_start d s t p]
    · rw [ends?_join, if_pos rfl]
  | some e =>
    right
    refine ⟨fun hland => ?_, e, rfl, rfl⟩
    rw [(joinFault?_eq_none_iff hwired).2 ⟨hside, hland⟩] at hfault
    cases hfault

def stepBesideOutput : List (Change Double) :=
  [.addShape (.step "f" [⟨"x", none⟩] [⟨"y", none⟩] Point.origin),
   .addShape (.output "o" none Point.origin)]

/-- A cable from the step lands on the output, but not on the step. -/
theorem attach_agrees_connect_stepBesideOutput :
    (blank.after stepBesideOutput).Reachable ∧
    ∃ d₁, (startCable ⟨⟨0⟩, .output, 0⟩).run (blank.after stepBesideOutput) = (.ok ⟨0⟩, d₁) ∧
      (attach ⟨0⟩ ⟨⟨1⟩, .input, 0⟩).run d₁ = (.ok (),
        (blank.after stepBesideOutput).join ⟨⟨0⟩, .output, 0⟩ ⟨⟨1⟩, .input, 0⟩) ∧
      (attach ⟨0⟩ ⟨⟨0⟩, .input, 0⟩).run d₁ = (.error (.wouldLoop "f" "f"), d₁) := by
  have hreach : (blank.after stepBesideOutput).Reachable := by
    refine ⟨_, ?_, rfl⟩
    simp [stepBesideOutput, Change.Built, Shape.Built.step, Shape.Built.output]
  obtain ⟨p, hp⟩ := exists_magnetPosition? (d := blank.after stepBesideOutput)
    (t := ⟨⟨0⟩, .output, 0⟩) rfl
  have hstart : (startCable ⟨⟨0⟩, .output, 0⟩).run (blank.after stepBesideOutput) =
      (.ok ⟨0⟩, (blank.after stepBesideOutput).start ⟨⟨0⟩, .output, 0⟩ p) := by
    rw [run_startCable, hp]
    rfl
  refine ⟨hreach, _, hstart, ?_, ?_⟩
  · have hconnect : (connect ⟨⟨0⟩, .output, 0⟩ ⟨⟨1⟩, .input, 0⟩).run
        (blank.after stepBesideOutput) = (.ok ⟨0⟩,
          (blank.after stepBesideOutput).join ⟨⟨0⟩, .output, 0⟩ ⟨⟨1⟩, .input, 0⟩) :=
      run_connect_of_successors_eq_nil rfl rfl rfl rfl rfl rfl (by decide) rfl
    obtain ⟨-, d₂, hland, hjoin, -⟩ | ⟨-, e, -, he⟩ :=
      attach_agrees_connect hreach hstart ⟨⟨1⟩, .input, 0⟩
    · cases hconnect.symm.trans hjoin
      exact hland
    · cases hconnect.symm.trans he
  · have hconnect : (connect ⟨⟨0⟩, .output, 0⟩ ⟨⟨0⟩, .input, 0⟩).run
        (blank.after stepBesideOutput) = (.error (.wouldLoop "f" "f"),
          blank.after stepBesideOutput) := by
      rw [run_connect]
      rfl
    obtain ⟨-, d₂, -, hjoin, -⟩ | ⟨-, e, hland, he⟩ :=
      attach_agrees_connect hreach hstart ⟨⟨0⟩, .input, 0⟩
    · cases hconnect.symm.trans hjoin
    · cases hconnect.symm.trans he
      exact hland

end Edit

end Patchbay
