import Patchbay.Proofs.Rounding

/-!
# Arithmetic of doubles

The operations of Core's model round the exact result. For doubles that stand for numbers, addition,
subtraction, multiplication and division give what approximates the sum, the difference, the product
and the quotient of these numbers, unless it is too great (`approximates_add` and so on). A square
root need not be a rational number. What is rounded in its place lies between the same two mantissas
as the root, and is no less than the powers of two that the root is no less than
(`approximates_sqrt`). Nothing else is used of it.

Packing loses nothing (`unpack_pack`), and doubles are compared as the numbers are
(`compare_rational`).
-/

namespace Patchbay

namespace Double

open Float.Model (Format UnpackedFloat)
open Float.Model.UnpackedFloat

variable {m : ℕ} {e : ℤ} {u v : UnpackedFloat}

/-! ## Packing -/

/-- The exponent is packed with an offset, and a mantissa of full length without its first digit. -/
theorem pack_finite (s : Sign) (hpos : 0 < m) (h : Canonical m e) :
    pack Format.binary64 (.finite s m e hpos) = packComponents Format.binary64 s
      (if 2 ^ 52 ≤ m then BitVec.ofNat 11 (e + 1075).toNat else 0#11) (BitVec.ofNat 52 m) := by
  have hbits : Format.binary64.mantissaBits = 53 := rfl
  have hbias : Format.binary64.exponentBias = 1023 := rfl
  have hhigh := h.high
  have hoffset : (e + (1023 : ℕ) + (52 : ℕ)).toNat = (e + 1075).toNat := by omega
  unfold pack
  dsimp only
  rw [hbits, hbias, hoffset, if_neg (by omega)]
  by_cases hge : 2 ^ 52 ≤ m
  · have := (Nat.le_log2 hpos.ne').2 hge
    have := (Nat.log2_lt hpos.ne').2 h.lt
    rw [if_pos (by omega), if_pos hge]
  · have := (Nat.log2_lt hpos.ne').2 (Nat.lt_of_not_le hge)
    rw [if_neg (by omega), if_neg hge]

theorem unpack_pack (h : IsCanonical u) :
    unpack Format.binary64 (pack Format.binary64 u) = u := by
  match u, h with
  | .zero s, _ => exact unpack_packedZero
  | .finite s m e hpos, h =>
    obtain ⟨hlt, hlow, hnormal, hhigh⟩ := h
    have hbias : Format.binary64.exponentBias = 1023 := rfl
    rw [pack_finite s hpos ⟨hlt, hlow, hnormal, hhigh⟩]
    unfold unpack
    dsimp only
    simp only [unpackExponent_packComponents, unpackMantissa_packComponents,
      unpackSign_packComponents, Sign.ofBitVec_toBitVec]
    by_cases hge : 2 ^ 52 ≤ m
    · have hexp : (BitVec.ofNat 11 (e + 1075).toNat).toNat = (e + 1075).toNat := by
        rw [BitVec.toNat_ofNat]
        omega
      have hne : ∀ b : BitVec 11, b.toNat ≠ (e + 1075).toNat →
          BitVec.ofNat 11 (e + 1075).toNat ≠ b := fun b hb h => hb (h ▸ hexp)
      have hman : (1#1 ++ BitVec.ofNat 52 m).toNat = m := by
        rw [BitVec.toNat_append, BitVec.toNat_ofNat, BitVec.toNat_ofNat, Nat.shiftLeft_eq,
          Nat.mul_comm, ← Nat.two_pow_add_eq_or_of_lt (Nat.mod_lt m (Nat.two_pow_pos 52))]
        omega
      simp only [if_pos hge]
      rw [if_neg (hne _ (by change 2047 ≠ _; omega)), if_neg (hne _ (by change 0 ≠ _; omega))]
      congr 1
      rw [hexp, hbias]
      omega
    · have hman : (BitVec.ofNat 52 m).toNat = m := by
        rw [BitVec.toNat_ofNat]
        omega
      have hne : BitVec.ofNat 52 m ≠ 0#52 := fun h => hpos.ne' (hman.symm.trans (h ▸ rfl))
      simp only [if_neg hge]
      rw [if_neg (by decide), if_pos trivial, dif_neg hne, hnormal.resolve_left hge]
      congr 1

theorem isCanonical_unpack {b : BitVec Format.binary64.numBits}
    (h : (unpack Format.binary64 b).isFinite = true) : IsCanonical (unpack Format.binary64 b) := by
  have hbias : Format.binary64.exponentBias = 1023 := rfl
  have hman : (unpackMantissa b).toNat < 2 ^ 52 := (unpackMantissa b).isLt
  have hexp : (unpackExponent b).toNat < 2 ^ 11 := (unpackExponent b).isLt
  unfold unpack at h ⊢
  dsimp only at h ⊢
  split
  · rename_i hmax
    rw [if_pos hmax] at h
    split at h <;> cases h
  · rename_i hmax
    have hmax : (unpackExponent b).toNat ≠ 2047 := fun h => hmax (BitVec.eq_of_toNat_eq h)
    split
    · rename_i hmin
      have hmin : (unpackExponent b).toNat = 0 := congrArg BitVec.toNat hmin
      split
      · trivial
      · rw [hmin, hbias]
        exact ⟨by omega, by norm_num, .inr (by norm_num), by norm_num⟩
    · rename_i hmin
      have hmin : (unpackExponent b).toNat ≠ 0 := fun h => hmin (BitVec.eq_of_toNat_eq h)
      have happ : (1#1 ++ unpackMantissa b).toNat = 2 ^ 52 + (unpackMantissa b).toNat := by
        rw [BitVec.toNat_append, BitVec.toNat_ofNat, Nat.shiftLeft_eq, Nat.mul_comm,
          ← Nat.two_pow_add_eq_or_of_lt hman]
        omega
      have hpos : 0 < (1#1 ++ unpackMantissa b).toNat := by omega
      change Canonical (1#1 ++ unpackMantissa b).toNat _
      rw [happ, hbias]
      exact ⟨by omega, by omega, .inl (by omega), by omega⟩

/-! ## Rounding with any number of digits -/

theorem approximates_round (s : Sign) (hm : 0 < m) {d : ℤ} (hd : d ≤ 1023)
    (h : m * 2 ^ e ≤ (2 : ℚ) ^ d) :
    Approximates (UnpackedFloat.round Format.binary64 s m e) (signed s (m * 2 ^ e)) := by
  unfold UnpackedFloat.round decreaseExponent
  rw [targetExponent_eq]
  dsimp only
  generalize hk : (e - max ((m.log2 : ℤ) + 1 + e - 53) (-1074)).toNat = k
  have hvalue : ((m <<< k : ℕ) : ℚ) * 2 ^ (e - k) = m * 2 ^ e := by
    rw [Nat.shiftLeft_eq, Nat.cast_mul, Nat.cast_pow, Nat.cast_ofNat, mul_assoc, ← zpow_natCast,
      ← two_zpow_add]
    congr 2
    ring
  have hlow : 2 ^ m.log2 ≤ m := Nat.log2_self_le hm.ne'
  rw [← hvalue] at h ⊢
  refine approximates_roundWithAccuracy s (describes_exact _ _) ?_ hd h
  by_cases hmin : e - k ≤ -1074
  · exact .inr hmin
  · left
    rw [Nat.shiftLeft_eq]
    calc 2 ^ 52 ≤ 2 ^ (m.log2 + k) := Nat.pow_le_pow_right (by norm_num) (by omega)
      _ = 2 ^ m.log2 * 2 ^ k := Nat.pow_add _ _ _
      _ ≤ m * 2 ^ k := Nat.mul_le_mul_right _ hlow

theorem approximates_zero (s : Sign) : Approximates (.zero s) 0 :=
  ⟨trivial, -1074, .inl rfl, ⟨0, by simp [rational]⟩, by simp [rational]⟩

theorem approximates_normalize (k e : ℤ) (s : Sign) {d : ℤ} (hd : d ≤ 1023)
    (h : |(k : ℚ) * 2 ^ e| ≤ 2 ^ d) :
    Approximates (UnpackedFloat.normalize Format.binary64 k e s) (k * 2 ^ e) := by
  rw [abs_mul, abs_of_pos (two_zpow_pos e)] at h
  unfold UnpackedFloat.normalize
  split
  · rename_i hcmp
    have hneg := Int.compare_eq_lt.1 hcmp
    have hcast : (((-k).toNat : ℕ) : ℚ) = -k := by
      rw [← Int.cast_natCast, Int.toNat_of_nonneg (by omega), Int.cast_neg]
    have habs : |(k : ℚ)| = -k := abs_of_nonpos (by exact_mod_cast hneg.le)
    have hround := approximates_round (e := e) .negative (by omega : 0 < (-k).toNat) hd
      (by rwa [hcast, ← habs])
    rwa [hcast, signed, neg_mul, neg_neg] at hround
  · rename_i hcmp
    rw [Int.compare_eq_eq.1 hcmp, Int.cast_zero, zero_mul]
    exact approximates_zero s
  · rename_i hcmp
    have hpos := Int.compare_eq_gt.1 hcmp
    have hcast : ((k.toNat : ℕ) : ℚ) = k := by
      rw [← Int.cast_natCast, Int.toNat_of_nonneg (by omega)]
    have habs : |(k : ℚ)| = k := abs_of_nonneg (by exact_mod_cast hpos.le)
    have hround := approximates_round (e := e) .positive (by omega : 0 < k.toNat) hd
      (by rwa [hcast, ← habs])
    rwa [hcast, signed] at hround

/-- A double stands for itself. -/
theorem IsCanonical.approximates (h : IsCanonical u) : Approximates u (rational u) := by
  match u, h with
  | .zero s, _ => exact approximates_zero s
  | .finite s m e hpos, h =>
    refine ⟨h, e, ?_, ?_, by simpa using two_zpow_pos e⟩
    · rcases eq_or_ne e (-1074) with hmin | hmin
      · exact .inl hmin
      · have hlow := h.low
        have hm : (2 : ℚ) ^ (52 : ℤ) ≤ m := by exact_mod_cast h.normal.resolve_right hmin
        have habs : |rational (.finite s m e hpos)| = m * 2 ^ e := by
          have : (0 : ℚ) ≤ m * 2 ^ e := by positivity
          cases s <;> simp [rational, signed, abs_of_nonneg]
        refine .inr ⟨by omega, ?_⟩
        rw [habs, add_comm, two_zpow_add]
        exact mul_le_mul_of_nonneg_right hm (two_zpow_pos e).le
    · cases s with
      | negative => exact ⟨-m, by simp [rational, signed]⟩
      | positive => exact ⟨m, by simp [rational, signed]⟩

/-! ## Operations -/

theorem signed_mul (s : Sign) (x y : ℚ) : signed s (x * y) = signed s x * y := by
  cases s
  · exact (neg_mul x y).symm
  · rfl

theorem signed_mul_signed (s t : Sign) (x y : ℚ) :
    signed (s * t) (x * y) = signed s x * signed t y := by
  cases s <;> cases t
  · exact (neg_mul_neg x y).symm
  · exact (neg_mul x y).symm
  · exact (mul_neg x y).symm
  · rfl

theorem signed_div_signed (s t : Sign) (x y : ℚ) :
    signed (s / t) (x / y) = signed s x / signed t y := by
  cases s <;> cases t
  · exact (neg_div_neg_eq x y).symm
  · exact (neg_div y x).symm
  · exact (div_neg x).symm
  · rfl

theorem cast_apply (s : Sign) (m : ℕ) : ((s.apply m : ℤ) : ℚ) = signed s m := by
  cases s <;> simp [Sign.apply, signed]

/-- A smaller exponent makes a longer mantissa. -/
theorem cast_shiftLeft (m : ℕ) {t : ℤ} (h : t ≤ e) :
    ((m <<< (e - t).toNat : ℕ) : ℚ) * 2 ^ t = m * 2 ^ e := by
  rw [Nat.shiftLeft_eq, Nat.cast_mul, Nat.cast_pow, Nat.cast_ofNat, mul_assoc, ← zpow_natCast,
    ← two_zpow_add]
  congr 2
  omega

theorem approximates_add (hu : IsCanonical u) (hv : IsCanonical v)
    {d : ℤ} (hd : d ≤ 1023) (h : |rational u + rational v| ≤ 2 ^ d) :
    Approximates (add Format.binary64 u v) (rational u + rational v) := by
  match u, v, hu, hv with
  | .zero s, .zero t, _, _ =>
    have hzero : rational (.zero s) + rational (.zero t) = 0 := add_zero 0
    rw [hzero, add]
    split <;> exact approximates_zero _
  | .zero s, .finite t n k hpos, _, hv =>
    rw [show rational (.zero s) = 0 from rfl, zero_add]
    exact hv.approximates
  | .finite s m e hpos, .zero t, hu, _ =>
    rw [show rational (.zero t) = 0 from rfl, add_zero]
    exact hu.approximates
  | .finite s m e _, .finite t n k _, _, _ =>
    have hvalue : ((s.apply (m <<< (e - min e k).toNat : ℕ) +
        t.apply (n <<< (k - min e k).toNat : ℕ) : ℤ) : ℚ) * 2 ^ min e k =
        signed s (m * 2 ^ e) + signed t (n * 2 ^ k) := by
      rw [Int.cast_add, cast_apply, cast_apply, add_mul, ← signed_mul, ← signed_mul,
        cast_shiftLeft m (min_le_left e k), cast_shiftLeft n (min_le_right e k)]
    change |signed s (m * 2 ^ e) + signed t (n * 2 ^ k)| ≤ _ at h
    rw [← hvalue] at h
    have := approximates_normalize _ _ .positive hd h
    rwa [hvalue] at this

theorem sub_eq (u v : UnpackedFloat) :
    sub Format.binary64 u v = add Format.binary64 u v.neg := by
  match u, v with
  | .notANumber, _ => rfl
  | .infinity _, .notANumber | .zero _, .notANumber | .finite .., .notANumber => rfl
  | .infinity _, .infinity _ | .infinity _, .zero _ | .infinity _, .finite .. => rfl
  | .zero _, .infinity _ | .zero _, .zero _ | .zero _, .finite .. => rfl
  | .finite .., .infinity _ | .finite .., .zero _ => rfl
  | .finite s m e _, .finite t n k _ =>
    simp only [sub, add, neg]
    congr 1
    cases t
    · exact sub_neg_eq_add _ _
    · rfl

theorem IsCanonical.neg (h : IsCanonical u) : IsCanonical u.neg := by
  match u, h with
  | .zero _, h => exact h
  | .finite .., h => exact h

theorem rational_neg (u : UnpackedFloat) : rational u.neg = -rational u := by
  match u with
  | .notANumber | .infinity _ | .zero _ => exact neg_zero.symm
  | .finite .negative .. => exact (neg_neg _).symm
  | .finite .positive .. => rfl

theorem approximates_sub (hu : IsCanonical u) (hv : IsCanonical v)
    {d : ℤ} (hd : d ≤ 1023) (h : |rational u - rational v| ≤ 2 ^ d) :
    Approximates (sub Format.binary64 u v) (rational u - rational v) := by
  rw [sub_eq_add_neg, ← rational_neg] at h ⊢
  rw [sub_eq]
  exact approximates_add hu hv.neg hd h

theorem abs_signed (s : Sign) (x : ℚ) : |signed s x| = |x| := by
  cases s
  · exact abs_neg x
  · rfl

theorem approximates_mul (hu : IsCanonical u) (hv : IsCanonical v)
    {d : ℤ} (hd : d ≤ 1023) (h : |rational u * rational v| ≤ 2 ^ d) :
    Approximates (mul Format.binary64 u v) (rational u * rational v) := by
  match u, v, hu, hv with
  | .zero s, .zero t, _, _ =>
    rw [show rational (.zero s) = 0 from rfl, zero_mul]
    exact approximates_zero _
  | .zero s, .finite .., _, _ =>
    rw [show rational (.zero s) = 0 from rfl, zero_mul]
    exact approximates_zero _
  | .finite .., .zero t, _, _ =>
    rw [show rational (.zero t) = 0 from rfl, mul_zero]
    exact approximates_zero _
  | .finite s m e hm, .finite t n k hn, hu, hv =>
    have hvalue : ((m * n : ℕ) : ℚ) * 2 ^ (e + k) = m * 2 ^ e * (n * 2 ^ k) := by
      rw [Nat.cast_mul, two_zpow_add]
      ring
    have hprod : rational (.finite s m e hm) * rational (.finite t n k hn) =
        signed (s * t) ((m * n : ℕ) * 2 ^ (e + k)) := by
      rw [hvalue, signed_mul_signed]
      rfl
    rw [hprod] at h ⊢
    rw [abs_signed] at h
    refine approximates_roundWithAccuracy (s * t) (describes_exact _ _) ?_ hd
      ((le_abs_self _).trans h)
    rcases hu.normal with hm' | he
    · exact .inl (Nat.le_trans hm' (Nat.le_mul_of_pos_right m hn))
    · rcases hv.normal with hn' | hk
      · exact .inl (Nat.le_trans hn' (Nat.le_mul_of_pos_left n hm))
      · exact .inr (by omega)

/-- A quotient of natural numbers, and what the remainder tells about its digits. -/
theorem describes_div (m : ℕ) {n : ℕ} (hn : 0 < n) (t : ℤ) :
    Describes (.ofMantissaAndAccuracy (m / n) (accuracyOfFraction (m % n) n)) t
      ((m : ℚ) / n * 2 ^ t) := by
  have hpos : (0 : ℚ) < n := by exact_mod_cast hn
  have hsplit : (m : ℚ) / n = (m / n : ℕ) + (m % n : ℕ) / n := by
    rw [div_eq_iff hpos.ne', add_mul, div_mul_cancel₀ _ hpos.ne']
    exact_mod_cast (Nat.div_add_mod' m n).symm
  unfold accuracyOfFraction
  split
  · rename_i hzero
    rw [hsplit, hzero, Nat.cast_zero, zero_div, add_zero]
    exact describes_exact _ t
  · rename_i hrest
    have hrest : (0 : ℚ) < (m % n : ℕ) / n :=
      div_pos (by exact_mod_cast Nat.pos_of_ne_zero hrest) hpos
    have hlt : ((m % n : ℕ) : ℚ) / n < 1 := by
      rw [div_lt_one hpos]
      exact_mod_cast Nat.mod_lt m hn
    rw [hsplit]
    exact describes_inexact
      (mul_lt_mul_of_pos_right (by linarith) (two_zpow_pos t))
      (mul_lt_mul_of_pos_right (by linarith) (two_zpow_pos t))

/-- A quotient has enough digits if the exponents are taken into account. -/
theorem le_shiftLeft_div {m n : ℕ} (hm : 0 < m) (hn : 0 < n) {k t : ℤ}
    (ht : t = min (e - k) (max (m.log2 + 1 + e - (n.log2 + 1 + k) - 53) (-1074))) :
    2 ^ 52 ≤ (m <<< (e - k - t).toNat) / n ∨ t ≤ -1074 := by
  by_cases hmin : t ≤ -1074
  · exact .inr hmin
  · left
    have hlow : 2 ^ m.log2 ≤ m := Nat.log2_self_le hm.ne'
    have hhigh : n < 2 ^ (n.log2 + 1) := Nat.lt_log2_self
    rw [Nat.le_div_iff_mul_le hn, Nat.shiftLeft_eq]
    calc 2 ^ 52 * n ≤ 2 ^ 52 * 2 ^ (n.log2 + 1) := Nat.mul_le_mul_left _ hhigh.le
      _ = 2 ^ (52 + (n.log2 + 1)) := (Nat.pow_add _ _ _).symm
      _ ≤ 2 ^ (m.log2 + (e - k - t).toNat) := Nat.pow_le_pow_right (by norm_num) (by omega)
      _ = 2 ^ m.log2 * 2 ^ (e - k - t).toNat := Nat.pow_add _ _ _
      _ ≤ m * 2 ^ (e - k - t).toNat := Nat.mul_le_mul_right _ hlow

theorem approximates_div (hu : IsCanonical u) (hv : IsCanonical v) (hne : rational v ≠ 0)
    {d : ℤ} (hd : d ≤ 1023) (h : |rational u / rational v| ≤ 2 ^ d) :
    Approximates (div Format.binary64 u v) (rational u / rational v) := by
  match u, v, hu, hv with
  | .zero _, .zero _, _, _ | .finite .., .zero _, _, _ => exact (hne rfl).elim
  | .zero s, .finite .., _, _ =>
    rw [show rational (.zero s) = 0 from rfl, zero_div]
    exact approximates_zero _
  | .finite s m e hm, .finite t n k hn, _, _ =>
    obtain ⟨l, hl⟩ : ∃ l, l = min (e - k) (max (m.log2 + 1 + e - (n.log2 + 1 + k) - 53) (-1074)) :=
      ⟨_, rfl⟩
    have hquot : rational (.finite s m e hm) / rational (.finite t n k hn) =
        signed (s / t) (((m <<< (e - k - l).toNat : ℕ) : ℚ) / n * 2 ^ l) := by
      rw [div_mul_eq_mul_div, cast_shiftLeft m (e := e - k) (by omega), zpow_sub₀ (by norm_num),
        ← mul_div_assoc, div_div, mul_comm ((2 : ℚ) ^ k), signed_div_signed]
      rfl
    rw [hquot] at h ⊢
    rw [abs_signed] at h
    have := approximates_roundWithAccuracy (s / t) (describes_div _ hn l)
      (le_shiftLeft_div hm hn hl) hd ((le_abs_self _).trans h)
    have htarget : Format.binary64.targetExponent
        (Float.Model.totalExponent m e - Float.Model.totalExponent n k) =
          max (m.log2 + 1 + e - (n.log2 + 1 + k) - 53) (-1074) := rfl
    rw [div, divCore, htarget, ← hl]
    exact this

/-- What the remainder tells about the digits of the square root of a natural number. The root need
not be rational, but any number between the same two natural numbers is rounded alike. -/
theorem describes_sqrt (m : ℕ) (t : ℤ) (o : Ordering) :
    ∃ q : ℚ, m.sqrt ≤ q ∧ q < m.sqrt + 1 ∧ Describes (.ofMantissaAndAccuracy m.sqrt
      (if m - m.sqrt * m.sqrt = 0 then .exact else .inexact o)) t (q * 2 ^ t) := by
  split
  · exact ⟨m.sqrt, le_refl _, by linarith, describes_exact _ t⟩
  · refine ⟨m.sqrt + 1 / 2, by linarith, by linarith, describes_inexact ?_ ?_⟩
    · exact mul_lt_mul_of_pos_right (by linarith) (two_zpow_pos t)
    · exact mul_lt_mul_of_pos_right (by linarith) (two_zpow_pos t)

theorem root_le {c t : ℤ} {k : ℕ} (hm : m ≤ 2 ^ 53) (hc : e + 53 ≤ 2 * c)
    (h : (m : ℚ) * 2 ^ e = k * (2 ^ t) ^ 2) : (k.sqrt : ℚ) * 2 ^ t ≤ 2 ^ c := by
  have hm : (m : ℚ) ≤ 2 ^ (53 : ℤ) := by exact_mod_cast hm
  have hk : ((k.sqrt : ℚ)) ^ 2 ≤ k := by exact_mod_cast Nat.sqrt_le' k
  have hpos := two_zpow_pos t
  refine le_of_sq_le_sq ?_ (two_zpow_pos c).le
  calc ((k.sqrt : ℚ) * 2 ^ t) ^ 2 = (k.sqrt : ℚ) ^ 2 * (2 ^ t) ^ 2 := mul_pow _ _ _
    _ ≤ k * (2 ^ t) ^ 2 := mul_le_mul_of_nonneg_right hk (sq_nonneg _)
    _ = m * 2 ^ e := h.symm
    _ ≤ 2 ^ (53 : ℤ) * 2 ^ e := mul_le_mul_of_nonneg_right hm (two_zpow_pos e).le
    _ = 2 ^ (e + 53) := by rw [two_zpow_add, mul_comm]
    _ ≤ 2 ^ (c + c) := two_zpow_le (by omega)
    _ = (2 ^ c) ^ 2 := by rw [two_zpow_add, sq]

theorem le_root {k t : ℤ} {n : ℕ} (hn : 0 < n) (h : ((2 : ℚ) ^ k) ^ 2 ≤ n * (2 ^ t) ^ 2) :
    (2 : ℚ) ^ k ≤ n.sqrt * 2 ^ t := by
  have hpos := two_zpow_pos t
  rcases le_total t k with hle | hle
  · obtain ⟨j, rfl⟩ := Int.le.dest hle
    rw [two_zpow_add, mul_pow, mul_comm] at h
    have hj : ((2 : ℚ) ^ (j : ℤ)) ^ 2 ≤ n := le_of_mul_le_mul_right h (pow_pos hpos 2)
    have hj : 2 ^ j ≤ n.sqrt := Nat.le_sqrt'.2 (by exact_mod_cast hj)
    rw [two_zpow_add, mul_comm]
    exact mul_le_mul_of_nonneg_right (by exact_mod_cast hj) hpos.le
  · have hroot : 1 ≤ n.sqrt := Nat.le_sqrt'.2 (by omega)
    have hroot : (1 : ℚ) ≤ n.sqrt := by exact_mod_cast hroot
    calc (2 : ℚ) ^ k ≤ 1 * 2 ^ t := by rw [one_mul]; exact two_zpow_le hle
      _ ≤ n.sqrt * 2 ^ t := mul_le_mul_of_nonneg_right hroot hpos.le

/-- A square root is rounded from a number that is no less than any power of two whose square is no
greater than the radicand. -/
theorem approximates_sqrt (hu : IsCanonical u) (hpos : 0 ≤ rational u) :
    ∃ q, Approximates (sqrt Format.binary64 u) q ∧
      ∀ k : ℤ, (2 ^ k) ^ 2 ≤ rational u → 2 ^ k ≤ q := by
  match u, hu with
  | .zero s, _ =>
    refine ⟨0, approximates_zero s, fun k hk => ?_⟩
    have : (0 : ℚ) < (2 ^ k) ^ 2 := pow_pos (two_zpow_pos k) 2
    exact absurd hk (not_le.2 this)
  | .finite .negative m e hm, _ =>
    have : (0 : ℚ) < m * 2 ^ e := mul_pos (by exact_mod_cast hm) (two_zpow_pos e)
    change 0 ≤ -((m : ℚ) * 2 ^ e) at hpos
    linarith
  | .finite .positive m e hm, hu =>
    obtain ⟨t, ht⟩ : ∃ t, t = min (e / 2) (max ((m.log2 + 1 + e + 1) / 2 - 53) (-1074)) := ⟨_, rfl⟩
    obtain ⟨n, hn⟩ : ∃ n, n = m <<< (e - 2 * t).toNat := ⟨_, rfl⟩
    have hlow : 2 ^ m.log2 ≤ m := Nat.log2_self_le hm.ne'
    have hradicand : rational (.finite .positive m e hm) = n * (2 ^ t) ^ 2 := by
      have hsq : ((2 : ℚ) ^ t) ^ 2 = 2 ^ (2 * t) := by
        rw [mul_comm, zpow_mul]
        norm_cast
      rw [hn, hsq, cast_shiftLeft m (by omega)]
      rfl
    have hdigits : 2 ^ 52 ≤ n.sqrt ∨ t ≤ -1074 := by
      by_cases hmin : t ≤ -1074
      · exact .inr hmin
      · left
        rw [hn, Nat.le_sqrt, Nat.shiftLeft_eq]
        calc 2 ^ 52 * 2 ^ 52 = 2 ^ 104 := (Nat.pow_add 2 52 52).symm
          _ ≤ 2 ^ (m.log2 + (e - 2 * t).toNat) := Nat.pow_le_pow_right (by norm_num) (by omega)
          _ = 2 ^ m.log2 * 2 ^ (e - 2 * t).toNat := Nat.pow_add _ _ _
          _ ≤ m * 2 ^ (e - 2 * t).toNat := Nat.mul_le_mul_right _ hlow
    obtain ⟨q, hq, hq', hdescribes⟩ :=
      describes_sqrt n t (if n - n.sqrt * n.sqrt ≤ n.sqrt then .lt else .gt)
    have hbound : q * 2 ^ t ≤ 2 ^ ((e + 54) / 2 + 1) := by
      have := root_le (e := e) (c := (e + 54) / 2) hu.lt.le (by omega) hradicand
      have := two_zpow_le (by omega : t ≤ (e + 54) / 2)
      have := mul_le_mul_of_nonneg_right hq'.le (two_zpow_pos t).le
      rw [two_zpow_add, zpow_one]
      linarith
    have htarget : Format.binary64.targetExponent
        ((Float.Model.totalExponent m e + 1).ediv 2) =
          max ((m.log2 + 1 + e + 1) / 2 - 53) (-1074) := rfl
    have hhalf : e.ediv 2 = e / 2 := rfl
    have hhigh := hu.high
    rw [sqrt, sqrtCore, htarget, hhalf, ← ht, ← hn]
    refine ⟨q * 2 ^ t, approximates_roundWithAccuracy .positive hdescribes hdigits
      (by omega) hbound, fun k hk => ?_⟩
    rw [hradicand] at hk
    refine (le_root ?_ hk).trans (mul_le_mul_of_nonneg_right hq (two_zpow_pos t).le)
    rw [hn, Nat.shiftLeft_eq]
    exact Nat.mul_pos hm (Nat.two_pow_pos _)

/-! ## Order -/

/-- Numbers with a greater exponent are greater. -/
theorem Canonical.lt_of_exponent_lt {n : ℕ} {k : ℤ} (hm : Canonical m e) (hn : Canonical n k)
    (h : e < k) : (m : ℚ) * 2 ^ e < n * 2 ^ k := by
  have hlow := hm.low
  have hn' : (2 : ℚ) ^ (52 : ℤ) ≤ n := by exact_mod_cast hn.normal.resolve_right (by omega)
  have hm' : (m : ℚ) < 2 ^ (53 : ℤ) := by exact_mod_cast hm.lt
  calc (m : ℚ) * 2 ^ e < 2 ^ (53 : ℤ) * 2 ^ e := mul_lt_mul_of_pos_right hm' (two_zpow_pos e)
    _ = 2 ^ (53 + e) := (two_zpow_add _ _).symm
    _ ≤ 2 ^ (52 + k) := two_zpow_le (by omega)
    _ = 2 ^ (52 : ℤ) * 2 ^ k := two_zpow_add _ _
    _ ≤ n * 2 ^ k := mul_le_mul_of_nonneg_right hn' (two_zpow_pos k).le

/-- Exponents are compared before mantissas. -/
theorem compare_eq {n : ℕ} {k : ℤ} (hm : Canonical m e) (hn : Canonical n k) :
    (compare e k).then (compare m n) = compare ((m : ℚ) * 2 ^ e) (n * 2 ^ k) := by
  rcases lt_trichotomy e k with hlt | rfl | hgt
  · rw [compare_lt_iff_lt.2 hlt, compare_lt_iff_lt.2 (hm.lt_of_exponent_lt hn hlt)]
    rfl
  · rw [compare_eq_iff_eq.2 rfl]
    rcases lt_trichotomy m n with hlt | rfl | hgt
    · rw [compare_lt_iff_lt.2 hlt, compare_lt_iff_lt.2]
      · rfl
      · exact mul_lt_mul_of_pos_right (by exact_mod_cast hlt) (two_zpow_pos e)
    · rw [compare_eq_iff_eq.2 rfl, compare_eq_iff_eq.2 rfl]
      rfl
    · rw [compare_gt_iff_gt.2 hgt, compare_gt_iff_gt.2]
      · rfl
      · exact mul_lt_mul_of_pos_right (by exact_mod_cast hgt) (two_zpow_pos e)
  · rw [compare_gt_iff_gt.2 hgt, compare_gt_iff_gt.2 (hn.lt_of_exponent_lt hm hgt)]
    rfl

theorem rational_finite_pos (hpos : 0 < m) : 0 < rational (.finite .positive m e hpos) :=
  mul_pos (by exact_mod_cast hpos) (two_zpow_pos e)

theorem rational_finite_neg (hpos : 0 < m) : rational (.finite .negative m e hpos) < 0 :=
  neg_neg_of_pos (rational_finite_pos hpos)

theorem compare_neg (x y : ℚ) : compare (-x) (-y) = (compare x y).swap := by
  rcases lt_trichotomy x y with hlt | rfl | hgt
  · rw [compare_lt_iff_lt.2 hlt, compare_gt_iff_gt.2 (neg_lt_neg hlt)]
    rfl
  · rw [compare_eq_iff_eq.2 rfl, compare_eq_iff_eq.2 rfl]
    rfl
  · rw [compare_gt_iff_gt.2 hgt, compare_lt_iff_lt.2 (neg_lt_neg hgt)]
    rfl

/-- Doubles are compared by the numbers that they stand for. -/
theorem compare_rational (hu : IsCanonical u) (hv : IsCanonical v) :
    u.compare v = some (compare (rational u) (rational v)) := by
  match u, v, hu, hv with
  | .zero _, .zero _, _, _ => exact congrArg some (compare_eq_iff_eq.2 rfl).symm
  | .zero _, .finite .positive _ _ hn, _, _ =>
    exact congrArg some (compare_lt_iff_lt.2 (rational_finite_pos hn)).symm
  | .zero _, .finite .negative _ _ hn, _, _ =>
    exact congrArg some (compare_gt_iff_gt.2 (rational_finite_neg hn)).symm
  | .finite .positive _ _ hm, .zero _, _, _ =>
    exact congrArg some (compare_gt_iff_gt.2 (rational_finite_pos hm)).symm
  | .finite .negative _ _ hm, .zero _, _, _ =>
    exact congrArg some (compare_lt_iff_lt.2 (rational_finite_neg hm)).symm
  | .finite .positive _ _ _, .finite .positive _ _ _, hu, hv =>
    exact congrArg some (compare_eq hu hv)
  | .finite .positive _ _ hm, .finite .negative _ _ hn, _, _ =>
    exact congrArg some (compare_gt_iff_gt.2
      ((rational_finite_neg hn).trans (rational_finite_pos hm))).symm
  | .finite .negative _ _ hm, .finite .positive _ _ hn, _, _ =>
    exact congrArg some (compare_lt_iff_lt.2
      ((rational_finite_neg hm).trans (rational_finite_pos hn))).symm
  | .finite .negative _ _ _, .finite .negative _ _ _, hu, hv =>
    exact congrArg some ((congrArg Ordering.swap (compare_eq hu hv)).trans
      (compare_neg _ _).symm)

end Double

end Patchbay
