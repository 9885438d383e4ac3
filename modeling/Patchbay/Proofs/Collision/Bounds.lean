import Patchbay.Proofs.Collision.Limits
import Patchbay.Proofs.Moderate

/-!
# Bounds of a resolution

Shapes are pushed many times, but they do not move far if the numbers are moderate, because a shape
that is pushed is moved back onto the canvas at once: the new shift leads from where the shape rests
to somewhere on the canvas, but for what rounding changes (`within_shifted`). A push is about one
step long (`nearby_pushAway`). Its coordinates are those of the distance of two centres, divided by
the length of that distance. This is no less than a power of two that a coordinate is no less than,
or else both are small, but not tiny.

So a diagram in which no shape is far out stays like that (`steady_resolve`).
-/

namespace Patchbay

open Double

variable {a step size lo hi q : Double} {k : ℕ} {n : ℤ}

/-! ## Lengths -/

theorem square_bounds (ha : Within 1 250 a) :
    Within 1 500 (a * a) ∧ 0 ≤ (a * a).value ∧
      ∀ j : ℤ, 0 ≤ j → 2 ^ j ≤ |a.value| → 2 ^ (j + j) ≤ (a * a).value := by
  have hsquare := (ha.mul ha (by decide)).mono (m := 500) (l := 1) (by decide)
  have hrounds : Rounds (a * a).value (a.value * a.value) :=
    (isRounded_mul ha.isNumber ha.isNumber (d := 500) (by norm_num) (by
      rw [abs_mul, show (500 : ℤ) = 250 + 250 by norm_num, two_zpow_add]
      exact mul_le_mul ha.abs_le ha.abs_le (abs_nonneg _) (two_zpow_pos _).le)).rounds
  refine ⟨hsquare, hrounds.ge representable_zero (mul_self_nonneg _), ?_⟩
  intro j hj hle
  refine hrounds.ge (representable_two_zpow (by omega)) ?_
  rw [two_zpow_add, ← abs_mul_abs_self a.value]
  exact mul_le_mul hle hle (two_zpow_pos j).le (abs_nonneg _)

/-- A length is no less than a power of two that a coordinate is no less than. -/
theorem Point.Nearby.length_bounds {p : Point Double} (h : p.Nearby 1 250) :
    p.length.IsNumber ∧ ∀ j : ℤ, 0 ≤ j →
      2 ^ j ≤ |p.x.value| ∨ 2 ^ j ≤ |p.y.value| → 2 ^ j ≤ p.length.value := by
  obtain ⟨hxx, hxpos, hxlow⟩ := square_bounds h.x
  obtain ⟨hyy, hypos, hylow⟩ := square_bounds h.y
  have hsum := hxx.add hyy (by decide)
  have hrounds : Rounds (p.x * p.x + p.y * p.y).value ((p.x * p.x).value + (p.y * p.y).value) :=
    (isRounded_add hxx.isNumber hyy.isNumber (d := 501) (by norm_num) (by
      rw [show (501 : ℤ) = 500 + 1 by norm_num, ← two_mul_two_zpow]
      exact (abs_add_le _ _).trans (add_le_add hxx.abs_le hyy.abs_le))).rounds
  have hpos : 0 ≤ (p.x * p.x + p.y * p.y).value :=
    hrounds.ge representable_zero (add_nonneg hxpos hypos)
  obtain ⟨root, hroot, hlow⟩ := exists_isRounded_sqrt hsum.isNumber hpos
  refine ⟨hroot.isNumber, ?_⟩
  intro j hj hle
  refine hroot.rounds.ge (representable_two_zpow (by omega)) (hlow j ?_)
  rw [sq, ← two_zpow_add]
  refine hrounds.ge (representable_two_zpow (by omega)) ?_
  rcases hle with hle | hle
  · have := hxlow j hj hle
    linarith
  · have := hylow j hj hle
    linarith

namespace Collision

variable {settings : Settings Double}

/-! ## Pushes -/

/-- A coordinate that is scaled down to a step. -/
theorem within_scaled {length : Double} (ha : Within 1 250 a) (hstep : Within 1 64 step)
    (hlength : length.IsNumber) (hlow : ∀ j : ℤ, 0 ≤ j → 2 ^ j ≤ |a.value| → 2 ^ j ≤ length.value)
    (htiny : ¬ length < Scalar.tiny) : Within 1 117 (a * (step / length)) := by
  have hdiv : ∀ {j : ℤ}, -900 ≤ j → j ≤ 900 → 2 ^ j ≤ length.value →
      Within 1 (64 - j) (step / length) := fun hj hj' hle =>
    hstep.div hlength (hle.trans (le_abs_self _)) ⟨by norm_num, by omega, by omega⟩
  rcases lt_or_ge |a.value| 1 with hsmall | hlarge
  · -- the length may be tiny, but then so is the coordinate
    have ha : Within 1 0 a := ⟨ha.isNumber, by rw [zpow_zero]; norm_num; exact hsmall.le⟩
    rw [lt_iff hlength isNumber_tiny, value_tiny, not_lt] at htiny
    exact (ha.mul (hdiv (by norm_num) (by norm_num) htiny) (by decide)).mono (by decide)
  · have hbase : (1 : ℚ) < 2 := one_lt_two
    obtain ⟨j, hj, hj'⟩ := exists_mem_Ico_zpow (zero_lt_one.trans_le hlarge) hbase
    have hlow' : 0 ≤ j := by
      have : (2 : ℚ) ^ (0 : ℤ) < 2 ^ (j + 1) := (zpow_zero (2 : ℚ)).symm ▸ hlarge.trans_lt hj'
      have := (zpow_lt_zpow_iff_right₀ hbase).1 this
      omega
    have hhigh : j ≤ 250 := (zpow_le_zpow_iff_right₀ hbase).1 (hj.trans ha.abs_le)
    have ha : Within 1 (j + 1) a := ⟨ha.isNumber, by rw [Nat.cast_one, one_mul]; exact hj'.le⟩
    have hproduct := ha.mul (hdiv (by omega) (by omega) (hlow j hlow' hj))
      ⟨by norm_num, by omega, by omega⟩
    exact hproduct.mono ⟨by omega, by rw [one_mul, one_mul]; exact Nat.one_le_two_pow⟩

theorem nearby_pushAway (hsettings : settings.Moderate) {mover obstacle : Point Double}
    (h : mover.Nearby 1 249) (h' : obstacle.Nearby 1 249) :
    (pushAway settings mover obstacle).Nearby 1 117 := by
  have hdelta : (mover - obstacle).Nearby 1 250 := (h.sub h' (by decide)).mono (by decide)
  obtain ⟨hlength, hlow⟩ := hdelta.length_bounds
  unfold pushAway
  dsimp only
  split
  · exact ⟨hsettings.pushStep.mono (by decide), within_zero _ _⟩
  · rename_i htiny
    exact ⟨within_scaled hdelta.x hsettings.pushStep hlength
        (fun j hj hle => hlow j hj (.inl hle)) htiny,
      within_scaled hdelta.y hsettings.pushStep hlength
        (fun j hj hle => hlow j hj (.inr hle)) htiny⟩

/-! ## Staying on the canvas -/

/-- Moving a stretch into a range takes it no further than it is away. -/
theorem within_intoRange {start : Double} (hstart : Within k n start) (hsize : Within 1 n size)
    (hlo : Within 1 n lo) (hhi : Within 1 n hi) (hroom : Room (k + 4) n) :
    Within (k + 4) n (intoRange start size lo hi) := by
  have hroom : ∀ {l : ℕ}, l ≤ k + 4 → Room l n := fun hl => hroom.mono hl
  have hend := hstart.add hsize (hroom (by omega))
  unfold intoRange
  split
  · have hmiddle := (hlo.add hhi (hroom (by omega))).half (hroom (by omega))
    have hown := hstart.add (hsize.half (hroom (by omega))) (hroom (by omega))
    exact (hmiddle.sub hown (hroom (by omega))).widen (by omega)
  · split
    · exact (hlo.sub hstart (hroom (by omega))).widen (by omega)
    · split
      · exact (hhi.sub hend (hroom (by omega))).widen (by omega)
      · exact within_zero _ _

/-- Moved into the range, a stretch starts in it, but for what rounding changes. -/
theorem abs_add_intoRange_le {start : Double} (hstart : Within 1 252 start)
    (hsize : Within 1 65 size) (hhi : Within 1 65 hi) :
    |start.value + (intoRange start size 0 hi).value| ≤ 2 ^ (206 : ℤ) := by
  have hstart' : Near 252 0 start.value start := hstart.near
  have hsize' : Near 252 0 size.value size := (hsize.mono (by decide)).near
  have hhi' : Near 252 0 hi.value hi := (hhi.mono (by decide)).near
  have hzero : Near 252 0 (0 : Double).value 0 := (within_zero 1 252).near
  have hend := hstart'.add hsize' (by decide)
  have hsize_le := hsize.abs_le
  have hhi_le := hhi.abs_le
  rw [abs_le] at *
  unfold intoRange
  split
  · -- a stretch that is too long is put in the middle
    have hmiddle := (hzero.add hhi' (by decide)).half (by decide)
    have hown := hstart'.add (hsize'.half (by decide)) (by decide)
    have hmove := (hmiddle.sub hown (by decide)).le
    rw [value_zero, abs_le] at hmove
    norm_num at hmove hsize_le hhi_le ⊢
    constructor <;> linarith
  · split
    · have hmove := (hzero.sub hstart' (by decide)).le
      rw [value_zero, abs_le] at hmove
      norm_num at hmove ⊢
      constructor <;> linarith
    · rename_i hlow
      rw [lt_iff hstart.isNumber isNumber_zero, value_zero, not_lt] at hlow
      split
      · have hmove := ((hhi'.mono (m := 253) (by decide)).sub hend (by decide)).le
        rw [abs_le] at hmove
        norm_num at hmove hsize_le hhi_le ⊢
        constructor <;> linarith
      · -- nothing is moved, and both ends are in the range
        rename_i hhigh
        rw [lt_iff hhi.isNumber hend.within.isNumber, not_lt] at hhigh
        have hend_le := hend.le
        rw [abs_le] at hend_le
        rw [value_zero]
        norm_num at hend_le hsize_le hhi_le ⊢
        constructor <;> linarith

/-- A shape that is pushed and moved back onto the canvas: one coordinate of its new shift. -/
theorem within_shifted {position shift : Double} (hposition : Within 1 242 position)
    (hshift : Within 1 243 shift) (hsize : Within 1 65 size) (hhi : Within 1 65 hi)
    (hq : Within 1 250 q) :
    Within 1 243 (shift + (q + intoRange (position + shift - Scalar.half size + q) size 0 hi)) := by
  have hposition' : Near 243 0 position.value position := (hposition.mono (by decide)).near
  have hsize' : Near 244 0 size.value size := (hsize.mono (by decide)).near
  have hcorner := (hposition'.add hshift.near (by decide)).sub (hsize'.half (by decide)) (by decide)
  have hpushed := (hcorner.mono (m := 250) (by decide)).add hq.near (by decide)
  generalize hstart : position + shift - Scalar.half size + q = start at hpushed ⊢
  have hstart : Within 1 252 start := hpushed.within.mono (by decide)
  have hback := abs_add_intoRange_le hstart hsize hhi
  have hmove := within_intoRange hstart (hsize.mono (by decide)) (within_zero 1 252)
    (hhi.mono (by decide)) (by decide)
  generalize intoRange start size 0 hi = move at hback hmove ⊢
  have hmove' : Near 255 0 move.value move := (hmove.mono (by decide)).near
  have hq' : Near 255 0 q.value q := (hq.mono (by decide)).near
  have hshift' : Near 256 0 shift.value shift := (hshift.mono (by decide)).near
  have hnew := hshift'.add (hq'.add hmove' (by decide)) (by decide)
  refine ⟨hnew.within.isNumber, ?_⟩
  -- the old shift and the push are in the pushed start too, where the move back has cancelled them
  have hnew_le := hnew.le
  have hpushed_le := hpushed.le
  have hposition_le := hposition.abs_le
  have hsize_le := hsize.abs_le
  rw [abs_le] at *
  norm_num at hnew_le hpushed_le hposition_le hsize_le hback ⊢
  constructor <;> linarith

end Collision

/-! ## Shapes that stay near -/

/-- The shape is not far out, neither where it rests nor where it has been moved. -/
structure Shape.Steady (s : Shape Double) : Prop where
  width : Within 1 64 s.size.1
  height : Within 1 64 s.size.2
  position : s.position.Nearby 1 242
  shift : s.shift.Nearby 1 243

theorem Shape.Steady.nearby_centre {s : Shape Double} (h : s.Steady) : s.centre.Nearby 1 244 :=
  ((h.position.mono (m := 243) (l := 1) (by decide)).add h.shift (by decide)).mono (by decide)

namespace Collision

variable {s : Shape Double} {push : Point Double}

theorem within_far_edge (ha : Within 1 64 a) : Within 1 65 (0 + a) :=
  ((within_zero 1 64).add ha (by decide)).mono (by decide)

theorem nearby_overflow (hsettings : settings.Moderate) (h : s.Steady) (hk : k ≤ 100)
    (hpush : push.Nearby k 244) : (overflow settings s push).Nearby (k + 6) 244 := by
  have hroom : ∀ {l : ℕ}, l ≤ k + 6 → Room l 244 := fun hl => ⟨by omega, by decide, by decide⟩
  have hone : ∀ {c w p far : Double}, Within 1 244 c → Within 1 64 w → Within k 244 p →
      Within 1 64 far → Within (k + 6) 244 (intoRange (c - Scalar.half w + p) w 0 (0 + far)) := by
    intro c w p far hc hw hp hfar
    have hw : Within 1 244 w := hw.mono (by decide)
    have hstart := (hc.sub (hw.half (by decide)) (by decide)).add hp (hroom (by omega))
    have hmove := within_intoRange hstart hw (within_zero 1 244)
      ((within_far_edge hfar).mono (by decide)) (hroom (by omega))
    exact hmove.widen (by omega)
  exact ⟨hone h.nearby_centre.x h.width hpush.x hsettings.width,
    hone h.nearby_centre.y h.height hpush.y hsettings.height⟩

/-- A shape that is pushed and moved back onto the canvas stays near. -/
theorem steady_pushed (hsettings : settings.Moderate) (h : s.Steady) (hpush : push.Nearby 1 250) :
    Shape.Steady { s with shift := s.shift + (push + overflow settings s push) } where
  width := h.width
  height := h.height
  position := h.position
  shift :=
    ⟨within_shifted h.position.x h.shift.x (h.width.mono (by decide))
      (within_far_edge hsettings.width) hpush.x,
    within_shifted h.position.y h.shift.y (h.height.mono (by decide))
      (within_far_edge hsettings.height) hpush.y⟩

end Collision

/-! ## Diagrams that stay near -/

def Diagram.Steady (d : Diagram Double) : Prop := ∀ id s, d.shape? id = some s → s.Steady

namespace Collision

open Diagram

variable {around : Surroundings Double} {bias : Double} {d : Diagram Double}
  {root mover other : ShapeId} {otherPush : Point Double}

theorem nearby_overflowAt (hsettings : settings.Moderate) (hd : d.Steady) (hk : k ≤ 100)
    (hpush : push.Nearby k 244) (mover : ShapeId) :
    (overflowAt settings d mover push).Nearby (k + 6) 244 := by
  unfold overflowAt
  cases hs : d.shape? mover with
  | none => exact .origin _ _
  | some s => exact nearby_overflow hsettings (hd mover s hs) hk hpush

theorem steady_pushOne (hsettings : settings.Moderate) (hd : d.Steady) (hpush : push.Nearby 1 250) :
    (pushOne settings d mover push).Steady := by
  intro id s hs
  rw [pushOne, shape?_shiftBy] at hs
  split at hs
  · rename_i heq
    obtain ⟨t, ht, rfl⟩ := Option.map_eq_some_iff.1 hs
    rw [overflowAt, heq, ht]
    exact steady_pushed hsettings (hd id t ht) hpush
  · exact hd id s hs

theorem steady_pushBoth (hsettings : settings.Moderate) (hd : d.Steady) (h : other ≠ mover)
    (hpush : push.Nearby 1 244) (hother : otherPush.Nearby 1 244) :
    (pushBoth settings d mover push other otherPush).Steady := by
  have hlost := nearby_overflowAt hsettings hd (by decide) hpush mover
  have hother' := hother.add hlost (by decide)
  have hback := nearby_overflowAt hsettings hd (by decide) hother' other
  rw [pushBoth_eq h]
  refine steady_pushOne hsettings (steady_pushOne hsettings hd ?_) ?_
  · exact hother'.mono (by decide)
  · exact ((hpush.add hlost (by decide)).add hback (by decide)).mono (by decide)

theorem nearby_pushOff (hsettings : settings.Moderate) (h : s.Steady) {obstacle : Point Double}
    (hobstacle : obstacle.Nearby 1 249) : (pushOff settings s obstacle).Nearby 1 117 := by
  have haway := nearby_pushAway hsettings (h.nearby_centre.mono (by decide)) hobstacle
  have hmiddle : ∀ {w : Double}, Within 1 64 w → Within 1 249 (0 + Scalar.half w) := fun hw =>
    (within_far_edge (hw.half (by decide))).mono (by decide)
  have hcenter : settings.bounds.center.Nearby 1 249 :=
    ⟨hmiddle hsettings.width, hmiddle hsettings.height⟩
  have hinward := nearby_pushAway hsettings hcenter hobstacle
  unfold pushOff
  dsimp only
  split
  · split
    · exact haway
    · exact hinward
  · exact haway

/-- The numbers of a resolution are not too great. -/
structure Moderate (around : Surroundings Double) (bias : Double) : Prop where
  settings : around.settings.Moderate
  bias : Within 1 64 bias
  obstacle : ∀ o, around.obstacle = some o → o.centre.Nearby 1 249

theorem steady_answer? (hmoderate : Moderate around bias) {p next : Pass Double}
    (hnext : answer? around bias root mover p = some next) (h : p.progress.diagram.Steady) :
    next.progress.diagram.Steady := by
  have hsettings := hmoderate.settings
  obtain ⟨s, hs, hnext⟩ := Option.bind_eq_some_iff.1 hnext
  have hsteady := h mover s hs
  have halone : ∀ {obstacle : Point Double}, obstacle.Nearby 1 249 →
      (pushOne around.settings p.progress.diagram mover
        (pushOff around.settings s obstacle)).Steady := fun hobstacle =>
    steady_pushOne hsettings h
      ((nearby_pushOff hsettings hsteady hobstacle).mono (by decide))
  by_cases hfixed : s.isFixed
  · rw [if_pos hfixed] at hnext
    cases hnext
  rw [if_neg hfixed] at hnext
  split at hnext
  · rename_i obstacle hobstacle
    cases hnext
    exact halone (hmoderate.obstacle obstacle (Option.filter_eq_some_iff.1 hobstacle).1)
  · obtain ⟨⟨id, other⟩, hfind, hnext⟩ := Option.bind_eq_some_iff.1 hnext
    have hother := (mem_shapes_iff.1 (List.mem_of_find?_eq_some hfind)).2
    have hne : id ≠ mover := by
      have hfound := List.find?_some hfind
      exact (of_decide_eq_true hfound).1
    have hcentre : other.centre.Nearby 1 249 :=
      (h id other hother).nearby_centre.mono (by decide)
    dsimp only at hnext
    split at hnext
    · cases hnext
      exact halone hcentre
    · have hpush := nearby_pushAway hsettings
        (hsteady.nearby_centre.mono (by decide)) hcentre
      have hrest := (within_one.mono (m := 64) (l := 1) (by decide)).sub
        hmoderate.bias (by decide)
      have hboth := steady_pushBoth hsettings h hne
        ((hpush.mul hrest (by decide)).mono (by decide))
        ((hpush.mul hmoderate.bias.neg (by decide)).mono (by decide))
      split at hnext
      · cases hnext
        exact hboth
      · cases hnext
        exact hboth

/-- A resolution leaves no shape far out. -/
theorem steady_resolve (hmoderate : Moderate around bias) (mover : ShapeId) (h : d.Steady) :
    (resolve around bias mover d).diagram.Steady :=
  clearAll_keeps (P := fun p => p.diagram.Steady)
    (fun _ _ _ hnext => steady_answer? hmoderate hnext) (fun _ h => h) _ h

end Collision

end Patchbay
