import Mathlib
import Patchbay.Double

/-!
# Sums of doubles

Core's floats come with a model: a number is read from its bits, worked on, rounded, and written
as bits again. Rounding a sum loses no digit of a small number, since both summands are multiples
of the smallest one, so it never gives zero (`exists_round_eq`); and a sum that is exactly zero is
positive. So a sum of doubles is negative zero only if both summands are
(`eq_negativeZero_of_add`), and zero may be added to anything else without effect
(`add_zero_of_ne`).
-/

namespace Patchbay

namespace Double

open Float.Model (Format UnpackedFloat)
open Float.Model.UnpackedFloat

/-! ## Rounding -/

theorem mantissa_shiftRight (em : ExtendedMantissa) (n : Nat) :
    (em >>> n).mantissa = em.mantissa / 2 ^ n := by
  change (n.repeat ExtendedMantissa.shiftRightOne em).mantissa = _
  induction n with
  | zero => simp [Nat.repeat]
  | succ n ih =>
    rw [Nat.repeat, Nat.pow_succ, ← Nat.div_div_eq_div_mul, ← ih]
    rfl

theorem mantissa_ofMantissaAndAccuracy (m : Nat) (a : Accuracy) :
    (ExtendedMantissa.ofMantissaAndAccuracy m a).mantissa = m := by
  rcases a with _ | o
  · rfl
  · cases o <;> rfl

theorem le_roundedMantissa (em : ExtendedMantissa) : em.mantissa ≤ em.roundedMantissa := by
  unfold ExtendedMantissa.roundedMantissa
  rcases em.accuracy with _ | o
  · exact Nat.le_refl _
  · cases o <;> simp only [Accuracy.roundToNearestEven] <;> omega

/-- The number fits its format: it is finite, with a mantissa that is not too long and an exponent
that is not too small. -/
def Fits (m : Nat) (e : Int) : Prop := 0 < m ∧ m < 2 ^ 53 ∧ -1074 ≤ e

theorem fits_shiftToTargetExponent {m : Nat} {e : Int} (hm : 0 < m) (he : -1074 ≤ e)
    (a : Accuracy) :
    Fits (shiftToTargetExponent Format.binary64 m e a).1.mantissa
      (shiftToTargetExponent Format.binary64 m e a).2 := by
  have htarget : Format.binary64.targetExponent (Float.Model.totalExponent m e) =
      max (m.log2 + 1 + e - 53) (-1074) := rfl
  have hlow : 2 ^ m.log2 ≤ m := Nat.log2_self_le (Nat.ne_of_gt hm)
  have hhigh : m < 2 ^ (m.log2 + 1) := Nat.lt_log2_self
  unfold shiftToTargetExponent shiftToExponent Fits
  dsimp only
  rw [mantissa_shiftRight, mantissa_ofMantissaAndAccuracy, htarget]
  generalize m.log2 = l at hlow hhigh ⊢
  rcases Nat.lt_or_ge l 53 with hl | hl
  -- the mantissa is short enough, and no digit is dropped
  · have hshift : (max ((l : Int) + 1 + e - 53) (-1074) - e).toNat = 0 := by omega
    have hpow : 2 ^ (l + 1) ≤ 2 ^ 53 := Nat.pow_le_pow_right (by decide) hl
    rw [hshift, Nat.pow_zero, Nat.div_one]
    exact ⟨hm, by omega, by omega⟩
  · have hshift : (max ((l : Int) + 1 + e - 53) (-1074) - e).toNat = l - 52 := by omega
    have hlow' : 2 ^ l = 2 ^ 52 * 2 ^ (l - 52) := by rw [← Nat.pow_add]; congr 1; omega
    have hhigh' : 2 ^ (l + 1) = 2 ^ 53 * 2 ^ (l - 52) := by rw [← Nat.pow_add]; congr 1; omega
    have hpos : 0 < 2 ^ (l - 52) := Nat.two_pow_pos _
    rw [hshift]
    refine ⟨?_, ?_, by omega⟩
    · have : 2 ^ 52 ≤ m / 2 ^ (l - 52) := (Nat.le_div_iff_mul_le hpos).2 (hlow' ▸ hlow)
      omega
    · exact (Nat.div_lt_iff_lt_mul hpos).2 (hhigh' ▸ hhigh)

/-- A number is never rounded to zero if its exponent is not too small. -/
theorem exists_round_eq {m : Nat} {e : Int} (s : Sign) (hm : 0 < m) (he : -1074 ≤ e) :
    ∃ m' e' hpos,
      UnpackedFloat.round Format.binary64 s m e = .finite s m' e' hpos ∧ Fits m' e' := by
  have htarget : ∀ t, -1074 ≤ Format.binary64.targetExponent t := fun t => Int.le_max_right _ _
  unfold UnpackedFloat.round decreaseExponent roundWithAccuracy
  dsimp only
  have hshifted : 0 < m <<< (e - Format.binary64.targetExponent
      (Float.Model.totalExponent m e)).toNat := by
    rw [Nat.shiftLeft_eq]
    exact Nat.mul_pos hm (Nat.two_pow_pos _)
  have hexp : -1074 ≤ e - (e - Format.binary64.targetExponent
      (Float.Model.totalExponent m e)).toNat := by
    have := htarget (Float.Model.totalExponent m e)
    omega
  have hfirst := fits_shiftToTargetExponent hshifted hexp .exact
  have hsecond := fits_shiftToTargetExponent
    (Nat.lt_of_lt_of_le hfirst.1 (le_roundedMantissa _)) hfirst.2.2 .exact
  rw [dif_neg (Nat.ne_of_gt hsecond.1)]
  exact ⟨_, _, _, rfl, hsecond⟩

/-- The bits of a number that fits are not those of a zero. -/
theorem Fits.pack_ne {m : Nat} {e : Int} (h : Fits m e) (s t : Sign) (hpos : 0 < m) :
    pack Format.binary64 (.finite s m e hpos) ≠ packedZero Format.binary64 t := by
  intro heq
  have hexp := congrArg unpackExponent heq
  have hman := congrArg unpackMantissa heq
  simp only [packedZero, unpackExponent_packComponents, unpackMantissa_packComponents] at hexp hman
  unfold pack at hexp hman
  dsimp only at hexp hman
  split at hexp
  · rw [packedInfinity, unpackExponent_packComponents] at hexp
    exact absurd hexp (by decide)
  · rename_i hlow
    rw [if_neg hlow] at hman
    split at hexp
    · rw [unpackExponent_packComponents] at hexp
      have := congrArg BitVec.toNat hexp
      change (e + 1023 + 52).toNat % 2048 = 0 at this
      change ¬ 2048 ≤ (e + 1023 + 52).toNat + 1 at hlow
      have := h.2.2
      omega
    · rename_i hkept
      rw [if_neg hkept, unpackMantissa_packComponents] at hman
      have hzero : m % 2 ^ 52 = 0 := congrArg BitVec.toNat hman
      have hlog : m.log2 < 53 := (Nat.log2_lt (Nat.ne_of_gt hpos)).2 h.2.1
      change ¬ m.log2 + 1 = 53 at hkept
      have hlt : m < 2 ^ 52 := (Nat.log2_lt (Nat.ne_of_gt hpos)).1 (by omega)
      rw [Nat.mod_eq_of_lt hlt] at hzero
      omega

/-- A number is never rounded to negative zero if its exponent is not too small: what is exactly
zero is rounded to positive zero, and the rest is not rounded to zero. -/
theorem pack_normalize_ne {m : Int} {e : Int} (he : -1074 ≤ e) :
    pack Format.binary64 (UnpackedFloat.normalize Format.binary64 m e .positive) ≠
      packedZero Format.binary64 .negative := by
  have hround : ∀ (r : Sign) {l : Nat}, 0 < l →
      pack Format.binary64 (UnpackedFloat.round Format.binary64 r l e) ≠
        packedZero Format.binary64 .negative := by
    intro r l hl
    obtain ⟨m', e', hpos, heq, hfits⟩ := exists_round_eq r hl he
    rw [heq]
    exact hfits.pack_ne _ _ _
  unfold UnpackedFloat.normalize
  split
  · rename_i hcmp
    have := Int.compare_eq_lt.1 hcmp
    exact hround _ (by omega)
  · decide
  · rename_i hcmp
    have := Int.compare_eq_gt.1 hcmp
    exact hround _ (by omega)

/-! ## Sums -/

theorem le_of_unpack_eq {b : BitVec Format.binary64.numBits} {s : Sign} {m : Nat} {e : Int}
    {hpos : 0 < m} (h : unpack Format.binary64 b = .finite s m e hpos) : -1074 ≤ e := by
  unfold unpack at h
  dsimp only at h
  split at h
  · split at h <;> cases h
  · split at h
    · rename_i hzero
      split at h
      · cases h
      · cases h
        rw [hzero]
        decide
    · rename_i hne
      cases h
      have : (unpackExponent b).toNat ≠ 0 := fun h => hne (BitVec.eq_of_toNat_eq h)
      change -1074 ≤ ((unpackExponent b).toNat : Int) - (1023 + 52)
      omega

theorem pack_infinity_ne (s : Sign) :
    pack Format.binary64 (.infinity s) ≠ packedZero Format.binary64 .negative := by
  cases s <;> decide

theorem pack_notANumber_ne :
    pack Format.binary64 .notANumber ≠ packedZero Format.binary64 .negative := by decide

theorem pack_zero_positive_ne :
    pack Format.binary64 (.zero .positive) ≠ packedZero Format.binary64 .negative := by decide

theorem unpack_eq_of_pack_eq {b : BitVec Format.binary64.numBits}
    (hb : Format.binary64.Valid b) {s : Sign}
    (hz : pack Format.binary64 (unpack Format.binary64 b) = packedZero Format.binary64 s) :
    unpack Format.binary64 b = .zero s := by
  rwa [unpack_eq_zero_iff_of_valid hb, ← pack_unpack_of_valid hb]

/-- A sum is negative zero only if both summands are. -/
theorem unpack_eq_of_pack_add_eq {a b : BitVec Format.binary64.numBits}
    (ha : Format.binary64.Valid a) (hb : Format.binary64.Valid b)
    (h : pack Format.binary64 (add Format.binary64 (unpack Format.binary64 a)
      (unpack Format.binary64 b)) = packedZero Format.binary64 .negative) :
    unpack Format.binary64 a = .zero .negative ∧ unpack Format.binary64 b = .zero .negative := by
  replace ha := @unpack_eq_of_pack_eq a ha .negative
  replace hb := @unpack_eq_of_pack_eq b hb .negative
  have hea := fun s m e hpos => @le_of_unpack_eq a s m e hpos
  have heb := fun s m e hpos => @le_of_unpack_eq b s m e hpos
  generalize unpack Format.binary64 a = x at h ha hea ⊢
  generalize unpack Format.binary64 b = y at h hb heb ⊢
  match x, y with
  | .notANumber, _ => exact absurd h pack_notANumber_ne
  | .infinity _, .notANumber | .zero _, .notANumber | .finite .., .notANumber =>
    exact absurd h pack_notANumber_ne
  | .infinity s, .infinity t =>
    rw [add] at h
    split at h
    · exact absurd h (pack_infinity_ne _)
    · exact absurd h pack_notANumber_ne
  | .infinity _, .zero _ | .infinity _, .finite .. | .zero _, .infinity _
  | .finite .., .infinity _ =>
    exact absurd h (pack_infinity_ne _)
  | .zero s, .zero t =>
    cases s <;> cases t <;> first
      | exact ⟨rfl, rfl⟩
      | exact absurd h pack_zero_positive_ne
  | .zero _, .finite .. => cases hb h
  | .finite .., .zero _ => cases ha h
  | .finite s m e hm, .finite t n k hn =>
    have he : -1074 ≤ min e k := by
      have := hea _ _ _ _ rfl
      have := heb _ _ _ _ rfl
      omega
    exact absurd h (pack_normalize_ne he)

/-! ## Doubles -/

def negativeZero : Double := ⟨signBit⟩

theorem infiniteMagnitude_lt_of_unpack {a : Double}
    (he : @unpackExponent Format.binary64 a.bits.toBitVec = -1#11)
    (hm : @unpackMantissa Format.binary64 a.bits.toBitVec ≠ 0#52) :
    infiniteMagnitude < a.magnitude := by
  have he : a.bits.toNat >>> 52 % 2 ^ 11 = 2047 := congrArg BitVec.toNat he
  have hm : a.bits.toNat >>> 0 % 2 ^ 52 ≠ 0 := fun h => hm (BitVec.eq_of_toNat_eq h)
  have hmag : a.magnitude.toNat = a.bits.toNat % 2 ^ 63 := by
    rw [magnitude, UInt64.toNat_and]
    exact Nat.and_two_pow_sub_one_eq_mod _ 63
  rw [UInt64.lt_iff_toNat_lt, hmag]
  change 0x7ff0000000000000 < _
  rw [Nat.shiftRight_eq_div_pow] at he hm
  omega

/-- A double that is defined has bits that a core float can have. -/
theorem valid_of_isNaN {a : Double} (h : a.isNaN = false) :
    Format.binary64.Valid a.bits.toBitVec := by
  rw [isNaN, decide_eq_false_iff_not] at h
  exact ⟨fun he hm => absurd (infiniteMagnitude_lt_of_unpack he hm) h⟩

theorem toModel_toFloat {a : Double} (h : a.isNaN = false) :
    a.toFloat.toModel.unpack = unpack Format.binary64 a.bits.toBitVec := by
  change unpack Format.binary64
    (pack Format.binary64 (unpack Format.binary64 a.bits.toBitVec)) = _
  rw [pack_unpack_of_valid (valid_of_isNaN h)]

theorem isNaN_unpack {a : Double} (h : a.isNaN = false) :
    (unpack Format.binary64 a.bits.toBitVec).isNaN = false := by
  rw [Bool.eq_false_iff, ne_eq, isNaN_unpack_iff_of_valid (valid_of_isNaN h)]
  intro hbits
  have : a = ⟨⟨packedNaN Format.binary64⟩⟩ := by
    cases a
    exact congrArg _ (UInt64.toBitVec_inj.1 hbits)
  subst this
  cases h

theorem add_eq_of_isNaN_left {a : Double} (h : a.isNaN = true) (b : Double) : a + b = a :=
  if_pos h

theorem add_eq_of_isNaN_right {a b : Double} (ha : a.isNaN = false) (hb : b.isNaN = true) :
    a + b = b :=
  (if_neg (by simp [ha])).trans (if_pos hb)

theorem add_eq {a b : Double} (ha : a.isNaN = false) (hb : b.isNaN = false) :
    a + b = ofResult (a.toFloat + b.toFloat) :=
  (if_neg (by simp [ha])).trans (if_neg (by simp [hb]))

theorem toBits_add {a b : Double} (ha : a.isNaN = false) (hb : b.isNaN = false) :
    (a.toFloat + b.toFloat).toBits = UInt64.ofBitVec (pack Format.binary64
      (add Format.binary64 (unpack Format.binary64 a.bits.toBitVec)
        (unpack Format.binary64 b.bits.toBitVec))) := by
  rw [← toModel_toFloat ha, ← toModel_toFloat hb]
  rfl

theorem eq_negativeZero_of_unpack_eq {a : Double} (ha : a.isNaN = false)
    (h : unpack Format.binary64 a.bits.toBitVec = .zero .negative) : a = negativeZero := by
  have hbits := (unpack_eq_zero_iff_of_valid (valid_of_isNaN ha)).1 h
  cases a with
  | mk bits => exact congrArg Double.mk (UInt64.toBitVec_inj.1 hbits)

/-- A sum is negative zero only if both summands are. -/
theorem eq_negativeZero_of_add {a b : Double} (h : a + b = negativeZero) :
    a = negativeZero ∧ b = negativeZero := by
  cases ha : a.isNaN with
  | true =>
    rw [add_eq_of_isNaN_left ha] at h
    subst h
    cases ha
  | false =>
    cases hb : b.isNaN with
    | true =>
      rw [add_eq_of_isNaN_right ha hb] at h
      subst h
      cases hb
    | false =>
      rw [add_eq ha hb] at h
      unfold ofResult at h
      split at h
      · cases h
      · have hbits := congrArg (fun c : Double => c.bits.toBitVec) h
        dsimp only at hbits
        rw [toBits_add ha hb] at hbits
        obtain ⟨hx, hy⟩ :=
          unpack_eq_of_pack_add_eq (valid_of_isNaN ha) (valid_of_isNaN hb) hbits
        exact ⟨eq_negativeZero_of_unpack_eq ha hx, eq_negativeZero_of_unpack_eq hb hy⟩

/-- Zero may be added to anything but negative zero. -/
theorem add_zero_of_ne {a : Double} (h : a ≠ negativeZero) : a + 0 = a := by
  cases ha : a.isNaN with
  | true => exact add_eq_of_isNaN_left ha 0
  | false =>
    have hsum : add Format.binary64 (unpack Format.binary64 a.bits.toBitVec)
        (unpack Format.binary64 (0 : Double).bits.toBitVec) =
          unpack Format.binary64 a.bits.toBitVec := by
      have hzero : unpack Format.binary64 (0 : Double).bits.toBitVec = .zero .positive := rfl
      have hneg := eq_negativeZero_of_unpack_eq ha
      rw [hzero]
      generalize unpack Format.binary64 a.bits.toBitVec = x at hneg ⊢
      match x with
      | .notANumber => rfl
      | .infinity s => rfl
      | .zero .positive => rfl
      | .zero .negative => exact absurd (hneg rfl) h
      | .finite .. => rfl
    have hbits : (a.toFloat + (0 : Double).toFloat).toBits = a.bits := by
      rw [toBits_add ha rfl, hsum, pack_unpack_of_valid (valid_of_isNaN ha)]
    have hnan : (a.toFloat + (0 : Double).toFloat).isNaN = false := by
      change (unpack Format.binary64 (a.toFloat + (0 : Double).toFloat).toBits.toBitVec).isNaN = _
      rw [hbits, isNaN_unpack ha]
    rw [add_eq ha rfl, ofResult, hnan, hbits]
    rfl

end Double

end Patchbay
