import Patchbay.Proofs.Sums

/-!
# Rounding

Operations on doubles give the exact result, rounded. All that is used of this is that rounding is
faithful (`Rounds`): of the multiples of a power of two that is small beside the number, the number
is rounded to one next to it. So rounding never goes past a number that has few digits
(`Rounds.le`), and what it changes is small beside the number (`Rounds.abs_sub_le`).

Core's model rounds a mantissa by shifting out its last digits, of which two bits are kept. They
describe the exact number well enough (`Describes`), and the result has the form in which doubles
are packed (`Canonical`).
-/

namespace Patchbay

namespace Double

open Float.Model (Format UnpackedFloat)
open Float.Model.UnpackedFloat

/-! ## Faithful rounding -/

theorem two_zpow_pos (e : ℤ) : (0 : ℚ) < 2 ^ e := zpow_pos (by norm_num) e

theorem two_zpow_le {e e' : ℤ} (h : e ≤ e') : (2 : ℚ) ^ e ≤ 2 ^ e' :=
  zpow_le_zpow_right₀ (by norm_num) h

theorem two_zpow_add (e e' : ℤ) : (2 : ℚ) ^ (e + e') = 2 ^ e * 2 ^ e' :=
  zpow_add₀ (by norm_num) e e'

/-- The number `r` is next to `q` on a grid that is as fine as that of the doubles at `q`. -/
def Rounds (r q : ℚ) : Prop :=
  ∃ e : ℤ, (e = -1074 ∨ -1074 < e ∧ 2 ^ (e + 52) ≤ |q|) ∧ (∃ k : ℤ, r = k * 2 ^ e) ∧
    |r - q| < 2 ^ e

/-- The number has no more digits than a double. -/
def Representable (b : ℚ) : Prop :=
  ∃ (k : ℤ) (e : ℤ), |k| ≤ 2 ^ 53 ∧ -1074 ≤ e ∧ b = k * 2 ^ e

variable {r q b : ℚ}

theorem Rounds.neg (h : Rounds r q) : Rounds (-r) (-q) := by
  obtain ⟨e, he, ⟨k, rfl⟩, hlt⟩ := h
  refine ⟨e, by rwa [abs_neg], ⟨-k, by push_cast; ring⟩, ?_⟩
  rwa [← neg_sub_neg, neg_neg, neg_neg, abs_sub_comm]

theorem Representable.neg (h : Representable b) : Representable (-b) := by
  obtain ⟨k, e, hk, he, rfl⟩ := h
  exact ⟨-k, e, by rwa [abs_neg], he, by push_cast; ring⟩

/-- Rounding does not go past a multiple of the grid. -/
theorem le_of_grid {e k j : ℤ} (hlt : |(k : ℚ) * 2 ^ e - q| < 2 ^ e) (hq : q ≤ j * 2 ^ e) :
    (k : ℚ) * 2 ^ e ≤ j * 2 ^ e := by
  have hpos := two_zpow_pos e
  have habove : (k : ℚ) * 2 ^ e < (j + 1) * 2 ^ e := by
    have := (abs_lt.1 hlt).2
    linarith
  have hkj : (k : ℚ) < j + 1 := lt_of_mul_lt_mul_right habove hpos.le
  have hkj : k < j + 1 := by exact_mod_cast hkj
  exact mul_le_mul_of_nonneg_right (by exact_mod_cast Int.lt_add_one_iff.1 hkj) hpos.le

/-- Rounding does not go past a number with few digits. -/
theorem Rounds.le (h : Rounds r q) (hb : Representable b) (hq : q ≤ b) : r ≤ b := by
  obtain ⟨e, he, ⟨k, rfl⟩, hlt⟩ := h
  obtain ⟨j, e', hj, he', rfl⟩ := hb
  -- it is enough to find a multiple of the grid between the two
  suffices ∃ i : ℤ, q ≤ i * 2 ^ e ∧ (i : ℚ) * 2 ^ e ≤ j * 2 ^ e' by
    obtain ⟨i, hqi, hij⟩ := this
    exact (le_of_grid hlt hqi).trans hij
  rcases le_or_gt e e' with hle | hgt
  · obtain ⟨n, rfl⟩ := Int.le.dest hle
    refine ⟨j * 2 ^ n, ?_, ?_⟩
    · rw [two_zpow_add, zpow_natCast] at hq
      push_cast
      linarith
    · rw [two_zpow_add, zpow_natCast]
      push_cast
      linarith
  · obtain ⟨-, hlow⟩ := he.resolve_left (by omega)
    have hbound : |(j : ℚ) * 2 ^ e'| ≤ 2 ^ (e + 52) := by
      have hj : |(j : ℚ)| ≤ 2 ^ (53 : ℤ) := by exact_mod_cast hj
      calc |(j : ℚ) * 2 ^ e'| = |(j : ℚ)| * 2 ^ e' := by
            rw [abs_mul, abs_of_pos (two_zpow_pos e')]
        _ ≤ 2 ^ (53 : ℤ) * 2 ^ e' := mul_le_mul_of_nonneg_right hj (two_zpow_pos e').le
        _ = 2 ^ (53 + e') := (two_zpow_add _ _).symm
        _ ≤ 2 ^ (e + 52) := two_zpow_le (by omega)
    have hgrid : (2 : ℚ) ^ (e + 52) = ((2 ^ 52 : ℤ) : ℚ) * 2 ^ e := by
      rw [add_comm, two_zpow_add]
      norm_num
    rcases le_total 0 q with hpos | hneg
    · rw [abs_of_nonneg hpos] at hlow
      exact ⟨2 ^ 52, by rw [← hgrid]; linarith [le_abs_self ((j : ℚ) * 2 ^ e')], by
        rw [← hgrid]; linarith⟩
    · rw [abs_of_nonpos hneg] at hlow
      exact ⟨-2 ^ 52, by push_cast at hgrid ⊢; linarith, by
        push_cast at hgrid ⊢; linarith [neg_abs_le ((j : ℚ) * 2 ^ e')]⟩

theorem Rounds.ge (h : Rounds r q) (hb : Representable b) (hq : b ≤ q) : b ≤ r := by
  have := h.neg.le hb.neg (neg_le_neg hq)
  linarith

theorem Rounds.abs_le_of_le (h : Rounds r q) (hb : Representable b) (hq : |q| ≤ b) : |r| ≤ b := by
  obtain ⟨hlow, hhigh⟩ := abs_le.1 hq
  exact abs_le.2 ⟨h.ge hb.neg hlow, h.le hb hhigh⟩

/-- What rounding changes is small beside the number. -/
theorem Rounds.abs_sub_le (h : Rounds r q) {n : ℤ} (hn : -1022 ≤ n) (hq : |q| ≤ 2 ^ n) :
    |r - q| ≤ 2 ^ (n - 52) := by
  obtain ⟨e, rfl | ⟨-, hlow⟩, -, hlt⟩ := h
  · exact hlt.le.trans (two_zpow_le (by omega))
  · have hle : e + 52 ≤ n := (zpow_le_zpow_iff_right₀ (by norm_num)).1 (hlow.trans hq)
    exact hlt.le.trans (two_zpow_le (by omega))

/-! ## Extended mantissas -/

/-- The mantissa is the number without its last digits, and the two bits tell whether these are
zero. -/
structure Describes (em : ExtendedMantissa) (e : ℤ) (x : ℚ) : Prop where
  le : em.mantissa * 2 ^ e ≤ x
  lt : x < (em.mantissa + 1) * 2 ^ e
  exact_iff : (em.roundBit = false ∧ em.stickyBit = false) ↔ x = em.mantissa * 2 ^ e

variable {em : ExtendedMantissa} {e : ℤ} {x : ℚ} {m : ℕ}

theorem Describes.shiftRightOne (h : Describes em e x) : Describes em.shiftRightOne (e + 1) x := by
  have hpos := two_zpow_pos e
  have hpow : (2 : ℚ) ^ (e + 1) = 2 * 2 ^ e := by rw [add_comm, two_zpow_add, zpow_one]
  obtain ⟨hle, hlt, hexact⟩ := h
  obtain ⟨mantissa, roundBit, stickyBit⟩ := em
  have hsplit : (mantissa : ℚ) = 2 * ((mantissa / 2 : ℕ) : ℚ) + ((mantissa % 2 : ℕ) : ℚ) := by
    exact_mod_cast (Nat.div_add_mod mantissa 2).symm
  have hmod : mantissa % 2 = 0 ∨ mantissa % 2 = 1 := Nat.mod_two_eq_zero_or_one mantissa
  dsimp only [ExtendedMantissa.shiftRightOne] at hle hlt hexact ⊢
  rw [hsplit] at hle hlt hexact
  refine ⟨?_, ?_, ?_⟩
  · rw [hpow]
    have : (0 : ℚ) ≤ ((mantissa % 2 : ℕ) : ℚ) * 2 ^ e := by positivity
    dsimp only
    linarith
  · rw [hpow]
    have : ((mantissa % 2 : ℕ) : ℚ) ≤ 1 := by exact_mod_cast (by omega : mantissa % 2 ≤ 1)
    have := mul_le_mul_of_nonneg_right this hpos.le
    dsimp only
    linarith
  · rw [hpow]
    dsimp only at hexact ⊢
    rcases hmod with hzero | hone
    · rw [hzero] at hexact ⊢
      simp only [Nat.cast_zero, add_zero] at hexact
      simp only [bne_self_eq_false, Bool.or_eq_false_iff, true_and]
      rw [hexact]
      constructor
      · intro hx
        linarith
      · intro hx
        linarith
    · rw [hone] at hle ⊢
      simp only [Nat.cast_one] at hle
      constructor
      · intro hbits
        simp at hbits
      · intro hx
        linarith

theorem Describes.shiftRight (h : Describes em e x) (n : ℕ) : Describes (em >>> n) (e + n) x := by
  change Describes (n.repeat ExtendedMantissa.shiftRightOne em) (e + n) x
  induction n with
  | zero => simpa [Nat.repeat] using h
  | succ n ih =>
    rw [Nat.repeat, Nat.cast_succ, ← add_assoc]
    exact ih.shiftRightOne

/-- A number without further digits. -/
theorem describes_exact (m : ℕ) (e : ℤ) :
    Describes (.ofMantissaAndAccuracy m .exact) e (m * 2 ^ e) := by
  have hpos := two_zpow_pos e
  refine ⟨le_refl _, ?_, by simp [ExtendedMantissa.ofMantissaAndAccuracy]⟩
  change (m : ℚ) * 2 ^ e < (m + 1) * 2 ^ e
  linarith

/-- A number between two mantissas. -/
theorem describes_inexact {o : Ordering} (hle : m * 2 ^ e < x) (hlt : x < (m + 1) * 2 ^ e) :
    Describes (.ofMantissaAndAccuracy m (.inexact o)) e x := by
  have hne : x ≠ m * 2 ^ e := hle.ne'
  cases o <;> exact ⟨hle.le, hlt, by simp [ExtendedMantissa.ofMantissaAndAccuracy, hne]⟩

theorem roundedMantissa_le (em : ExtendedMantissa) : em.roundedMantissa ≤ em.mantissa + 1 := by
  unfold ExtendedMantissa.roundedMantissa
  rcases em.accuracy with _ | o
  · exact Nat.le_succ _
  · cases o <;> simp only [Accuracy.roundToNearestEven] <;> omega

/-- Rounding the mantissa is faithful. -/
theorem Describes.abs_sub_lt (h : Describes em e x) :
    |(em.roundedMantissa : ℚ) * 2 ^ e - x| < 2 ^ e := by
  have hpos := two_zpow_pos e
  by_cases hexact : em.roundBit = false ∧ em.stickyBit = false
  · have hrounded : em.roundedMantissa = em.mantissa := by
      obtain ⟨mantissa, roundBit, stickyBit⟩ := em
      obtain ⟨hround, hsticky⟩ := hexact
      dsimp only at hround hsticky
      subst hround hsticky
      rfl
    rw [hrounded, h.exact_iff.1 hexact, sub_self, abs_zero]
    exact hpos
  · have hlt := lt_of_le_of_ne h.le fun heq => hexact (h.exact_iff.2 heq.symm)
    have hlow : (em.mantissa : ℚ) ≤ em.roundedMantissa := by exact_mod_cast le_roundedMantissa em
    have hhigh : (em.roundedMantissa : ℚ) ≤ em.mantissa + 1 := by
      exact_mod_cast roundedMantissa_le em
    have hlow := mul_le_mul_of_nonneg_right hlow hpos.le
    have hhigh := mul_le_mul_of_nonneg_right hhigh hpos.le
    have habove := h.lt
    rw [abs_lt]
    constructor <;> linarith

/-! ## Rounding to a double -/

/-- The mantissa and the exponent have the form in which doubles are packed. -/
structure Canonical (m : ℕ) (e : ℤ) : Prop where
  lt : m < 2 ^ 53
  low : -1074 ≤ e
  normal : 2 ^ 52 ≤ m ∨ e = -1074
  high : e ≤ 971

def signed : Sign → ℚ → ℚ
  | .negative, x => -x
  | .positive, x => x

/-- The number that a double stands for, and zero if it does not stand for any. -/
def rational : UnpackedFloat → ℚ
  | .finite s m e _ => signed s (m * 2 ^ e)
  | _ => 0

/-- A double that stands for a number, in the form in which it is packed. -/
def IsCanonical : UnpackedFloat → Prop
  | .zero _ => True
  | .finite _ m e _ => Canonical m e
  | _ => False

/-- The double stands for the number, rounded. -/
structure Approximates (u : UnpackedFloat) (q : ℚ) : Prop where
  canonical : IsCanonical u
  rounds : Rounds (rational u) q

variable {a : Accuracy} {t : ℤ}

theorem representable_zero : Representable 0 := ⟨0, 0, by norm_num, by norm_num, by norm_num⟩

theorem representable_two_zpow {n : ℤ} (h : -1074 ≤ n) : Representable (2 ^ n) :=
  ⟨1, n, by norm_num, h, by norm_num⟩

theorem targetExponent_eq (m : ℕ) (e : ℤ) :
    Format.binary64.targetExponent (Float.Model.totalExponent m e) =
      max (m.log2 + 1 + e - 53) (-1074) := rfl

/-- A mantissa with enough digits is shifted until it has as many as that of a double. -/
theorem describes_shiftToTargetExponent (h : Describes (.ofMantissaAndAccuracy m a) e x)
    (hm : 2 ^ 52 ≤ m ∨ e ≤ -1074) :
    Describes (shiftToTargetExponent Format.binary64 m e a).1
        (shiftToTargetExponent Format.binary64 m e a).2 x ∧
      (shiftToTargetExponent Format.binary64 m e a).1.mantissa < 2 ^ 53 ∧
      -1074 ≤ (shiftToTargetExponent Format.binary64 m e a).2 ∧
      (2 ^ 52 ≤ (shiftToTargetExponent Format.binary64 m e a).1.mantissa ∨
        (shiftToTargetExponent Format.binary64 m e a).2 = -1074) := by
  have hlog : 2 ^ 52 ≤ m → 52 ≤ m.log2 := fun hm =>
    (Nat.le_log2 (Nat.ne_of_gt (Nat.lt_of_lt_of_le (by norm_num) hm))).2 hm
  have hhigh : m < 2 ^ (m.log2 + 1) := Nat.lt_log2_self
  have hlow : m ≠ 0 → 2 ^ m.log2 ≤ m := Nat.log2_self_le
  have hzero : m = 0 → m.log2 = 0 := by
    intro hm
    rw [hm]
    rfl
  unfold shiftToTargetExponent shiftToExponent
  rw [targetExponent_eq]
  dsimp only
  obtain ⟨n, hn⟩ : ∃ n : ℕ, max (m.log2 + 1 + e - 53) (-1074) = e + n := by
    refine ⟨(max (m.log2 + 1 + e - 53) (-1074) - e).toNat, ?_⟩
    have : 2 ^ 52 ≤ m ∧ 52 ≤ m.log2 ∨ e ≤ -1074 := hm.imp_left fun hm => ⟨hm, hlog hm⟩
    omega
  have hamount : (max ((m.log2 : ℤ) + 1 + e - 53) (-1074) - e).toNat = n := by omega
  rw [hamount, mantissa_shiftRight, mantissa_ofMantissaAndAccuracy]
  have hpos : 0 < 2 ^ n := Nat.two_pow_pos n
  refine ⟨h.shiftRight n, ?_, by omega, ?_⟩
  · rw [Nat.div_lt_iff_lt_mul hpos, ← Nat.pow_add]
    exact Nat.lt_of_lt_of_le hhigh (Nat.pow_le_pow_right (by norm_num) (by omega))
  · by_cases hsmall : e + n = -1074
    · exact .inr hsmall
    · left
      have hne : m ≠ 0 := fun hm => by
        have := hzero hm
        omega
      rw [Nat.le_div_iff_mul_le hpos, ← Nat.pow_add]
      exact Nat.le_trans (Nat.pow_le_pow_right (by norm_num) (by omega)) (hlow hne)

/-- If rounding has given a mantissa one more digit, then that digit is dropped, and it is zero. -/
theorem shiftToTargetExponent_rounded (hm : m ≤ 2 ^ 53) (he : -1074 ≤ e)
    (hnormal : 2 ^ 52 ≤ m ∨ e = -1074) :
    (shiftToTargetExponent Format.binary64 m e .exact).1.mantissa < 2 ^ 53 ∧
      -1074 ≤ (shiftToTargetExponent Format.binary64 m e .exact).2 ∧
      (2 ^ 52 ≤ (shiftToTargetExponent Format.binary64 m e .exact).1.mantissa ∨
        (shiftToTargetExponent Format.binary64 m e .exact).2 = -1074) ∧
      ((shiftToTargetExponent Format.binary64 m e .exact).1.mantissa : ℚ) *
        2 ^ (shiftToTargetExponent Format.binary64 m e .exact).2 = m * 2 ^ e := by
  unfold shiftToTargetExponent shiftToExponent
  rw [targetExponent_eq]
  dsimp only
  rw [mantissa_shiftRight, mantissa_ofMantissaAndAccuracy]
  rcases Nat.lt_or_eq_of_le hm with hlt | rfl
  · have hlog : m.log2 < 53 := by
      by_cases hzero : m = 0
      · rw [hzero]
        decide
      · exact (Nat.log2_lt hzero).2 hlt
    have hamount : (max ((m.log2 : ℤ) + 1 + e - 53) (-1074) - e).toNat = 0 := by omega
    rw [hamount]
    simpa using ⟨hlt, he, hnormal⟩
  · rw [Nat.log2_two_pow]
    have hamount : (max (((53 : ℕ) : ℤ) + 1 + e - 53) (-1074) - e).toNat = 1 := by omega
    rw [hamount]
    refine ⟨by norm_num, by omega, .inl (by norm_num), ?_⟩
    rw [Nat.cast_one, two_zpow_add]
    norm_num
    ring

/-- A number of which enough digits are known is rounded faithfully. -/
theorem approximates_roundWithAccuracy (s : Sign)
    (h : Describes (.ofMantissaAndAccuracy m a) e x) (hm : 2 ^ 52 ≤ m ∨ e ≤ -1074)
    {n : ℤ} (hn : n ≤ 1023) (hx : x ≤ 2 ^ n) :
    Approximates (roundWithAccuracy Format.binary64 s m e a) (signed s x) := by
  obtain ⟨hdescribes, hlt, hlow, hnormal⟩ := describes_shiftToTargetExponent h hm
  unfold roundWithAccuracy
  dsimp only
  generalize (shiftToTargetExponent Format.binary64 m e a).1 = em at *
  generalize (shiftToTargetExponent Format.binary64 m e a).2 = t at *
  have hrounds : Rounds (em.roundedMantissa * 2 ^ t) x := by
    refine ⟨t, ?_, ⟨em.roundedMantissa, by push_cast; rfl⟩, hdescribes.abs_sub_lt⟩
    rcases hnormal with hnormal | hmin
    · by_cases hmin : t = -1074
      · exact .inl hmin
      · refine .inr ⟨by omega, ?_⟩
        have hnormal : (2 : ℚ) ^ (52 : ℤ) ≤ em.mantissa := by exact_mod_cast hnormal
        calc (2 : ℚ) ^ (t + 52) = 2 ^ (52 : ℤ) * 2 ^ t := by rw [add_comm, two_zpow_add]
          _ ≤ em.mantissa * 2 ^ t := mul_le_mul_of_nonneg_right hnormal (two_zpow_pos t).le
          _ ≤ x := hdescribes.le
          _ ≤ |x| := le_abs_self x
    · exact .inl hmin
  obtain ⟨hlt', hlow', hnormal', hvalue⟩ := shiftToTargetExponent_rounded
    (Nat.le_trans (roundedMantissa_le em) hlt) hlow
    (hnormal.imp_left fun h => Nat.le_trans h (le_roundedMantissa em))
  generalize (shiftToTargetExponent Format.binary64 em.roundedMantissa t .exact).1.mantissa = m'
    at *
  generalize (shiftToTargetExponent Format.binary64 em.roundedMantissa t .exact).2 = t' at *
  have hsigned : ∀ v, Rounds v x → Rounds (signed s v) (signed s x) := by
    intro v hv
    cases s with
    | negative => exact hv.neg
    | positive => exact hv
  rw [← hvalue] at hrounds
  split
  · rename_i hzero
    refine ⟨trivial, ?_⟩
    have := hsigned _ hrounds
    rw [hzero] at this
    cases s <;> simpa [signed, rational] using this
  · refine ⟨⟨hlt', hlow', hnormal', ?_⟩, hsigned _ hrounds⟩
    rcases hnormal' with hnormal' | hmin
    · have hle := hrounds.le (representable_two_zpow (le_max_right n (-1074)))
        (hx.trans (two_zpow_le (le_max_left n (-1074))))
      have hnormal' : (2 : ℚ) ^ (52 : ℤ) ≤ m' := by exact_mod_cast hnormal'
      have hpow : (2 : ℚ) ^ (52 + t') ≤ 2 ^ max n (-1074) := by
        rw [two_zpow_add]
        exact (mul_le_mul_of_nonneg_right hnormal' (two_zpow_pos t').le).trans hle
      have := (zpow_le_zpow_iff_right₀ (by norm_num : (1 : ℚ) < 2)).1 hpow
      omega
    · omega

end Double

end Patchbay
