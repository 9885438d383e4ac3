import Patchbay.Geometry.Point
import Patchbay.Proofs.Arithmetic

/-!
# Magnitudes of doubles

`Within k n a` says that a double is a number whose distance from zero is at most `k` times the
`n`-th power of two. Such a bound is a double itself, unless `k` or `n` is too great (`Room`), and
rounding does not go past it. So the bounds of the operands add and multiply as if nothing were
rounded.

This is not enough where numbers cancel. `Near n ε x a` says in addition how far the double is from
the number `x`, which the operations would have given without rounding.
-/

namespace Patchbay

namespace Double

open Float.Model (Format UnpackedFloat)
open Float.Model.UnpackedFloat

variable {a b : Double} {u : UnpackedFloat} {q : ℚ} {d : ℤ}

/-! ## Numbers -/

/-- Neither infinite nor undefined. -/
def IsNumber (a : Double) : Prop := IsCanonical (unpack Format.binary64 a.bits.toBitVec)

/-- The number that a double stands for, and zero if it does not stand for any. -/
def value (a : Double) : ℚ := rational (unpack Format.binary64 a.bits.toBitVec)

/-- The double stands for the number, rounded. -/
structure IsRounded (a : Double) (q : ℚ) : Prop where
  isNumber : a.IsNumber
  rounds : Rounds a.value q

theorem isNumber_iff : a.IsNumber ↔ a.magnitude < infiniteMagnitude := by
  have hmag : a.magnitude.toNat = a.bits.toNat % 2 ^ 63 := by
    rw [magnitude, UInt64.toNat_and]
    exact Nat.and_two_pow_sub_one_eq_mod _ 63
  have hexp : (@unpackExponent Format.binary64 a.bits.toBitVec).toNat =
      a.bits.toNat / 2 ^ 52 % 2 ^ 11 := by
    rw [← Nat.shiftRight_eq_div_pow]
    rfl
  have hlt : a.magnitude < infiniteMagnitude ↔
      @unpackExponent Format.binary64 a.bits.toBitVec ≠ -1#11 := by
    rw [UInt64.lt_iff_toNat_lt, hmag, ne_eq, ← BitVec.toNat_inj, hexp]
    change a.bits.toNat % 2 ^ 63 < 0x7ff0000000000000 ↔ ¬ _ = 2047
    omega
  rw [hlt, IsNumber]
  constructor
  · intro hnum hmax
    unfold unpack at hnum
    dsimp only at hnum
    rw [if_pos hmax] at hnum
    split at hnum <;> exact hnum
  · intro hne
    refine isCanonical_unpack ?_
    unfold unpack
    dsimp only
    rw [if_neg hne]
    split
    · split <;> rfl
    · rfl

instance : DecidablePred IsNumber := fun _ => decidable_of_iff _ isNumber_iff.symm

theorem IsNumber.isNaN_eq (h : a.IsNumber) : a.isNaN = false := by
  rw [isNaN, decide_eq_false_iff_not, UInt64.not_lt]
  exact UInt64.le_of_lt (isNumber_iff.1 h)

/-! ## Operations -/

theorem unpack_toModel {r : Float} (hr : r.toModel = .pack u) (h : IsCanonical u) :
    unpack Format.binary64 r.toBits.toBitVec = u := by
  change unpack Format.binary64 r.toModel.toBits.toBitVec = u
  rw [hr]
  exact unpack_pack h

theorem isRounded_toBits {r : Float} (hr : r.toModel = .pack u) (h : Approximates u q) :
    IsRounded ⟨r.toBits⟩ q := by
  have hunpack := unpack_toModel hr h.canonical
  refine ⟨?_, ?_⟩
  · rw [IsNumber, hunpack]
    exact h.canonical
  · rw [value, hunpack]
    exact h.rounds

theorem isRounded_ofResult {r : Float} (hr : r.toModel = .pack u) (h : Approximates u q) :
    IsRounded (ofResult r) q := by
  have hnan : r.isNaN = false := by
    change (unpack Format.binary64 r.toBits.toBitVec).isNaN = false
    rw [unpack_toModel hr h.canonical]
    match u, h.canonical with
    | .zero _, _ => rfl
    | .finite .., _ => rfl
  rw [ofResult, hnan]
  exact isRounded_toBits hr h

/-- Operations of two numbers round. -/
theorem isRounded_map₂ {op : Float → Float → Float}
    {f : UnpackedFloat → UnpackedFloat → UnpackedFloat}
    (hop : ∀ x y : Float, (op x y).toModel = .pack (f x.toModel.unpack y.toModel.unpack))
    (ha : a.IsNumber) (hb : b.IsNumber)
    (h : Approximates (f (unpack Format.binary64 a.bits.toBitVec)
      (unpack Format.binary64 b.bits.toBitVec)) q) : IsRounded (map₂ op a b) q := by
  rw [map₂, ha.isNaN_eq, hb.isNaN_eq]
  refine isRounded_ofResult ?_ h
  rw [hop, toModel_toFloat ha.isNaN_eq, toModel_toFloat hb.isNaN_eq]

theorem isRounded_add (ha : a.IsNumber) (hb : b.IsNumber) (hd : d ≤ 1023)
    (h : |a.value + b.value| ≤ 2 ^ d) : IsRounded (a + b) (a.value + b.value) :=
  isRounded_map₂ (fun _ _ => rfl) ha hb (approximates_add ha hb hd h)

theorem isRounded_sub (ha : a.IsNumber) (hb : b.IsNumber) (hd : d ≤ 1023)
    (h : |a.value - b.value| ≤ 2 ^ d) : IsRounded (a - b) (a.value - b.value) :=
  isRounded_map₂ (fun _ _ => rfl) ha hb (approximates_sub ha hb hd h)

theorem isRounded_mul (ha : a.IsNumber) (hb : b.IsNumber) (hd : d ≤ 1023)
    (h : |a.value * b.value| ≤ 2 ^ d) : IsRounded (a * b) (a.value * b.value) :=
  isRounded_map₂ (fun _ _ => rfl) ha hb (approximates_mul ha hb hd h)

theorem isRounded_div (ha : a.IsNumber) (hb : b.IsNumber) (hne : b.value ≠ 0) (hd : d ≤ 1023)
    (h : |a.value / b.value| ≤ 2 ^ d) : IsRounded (a / b) (a.value / b.value) :=
  isRounded_map₂ (fun _ _ => rfl) ha hb (approximates_div ha hb hne hd h)

/-- The square root rounds a number that is no less than any power of two whose square is no greater
than the radicand. -/
theorem exists_isRounded_sqrt (ha : a.IsNumber) (hpos : 0 ≤ a.value) :
    ∃ q, IsRounded (Scalar.sqrt a) q ∧ ∀ k : ℤ, (2 ^ k) ^ 2 ≤ a.value → 2 ^ k ≤ q := by
  obtain ⟨q, hq, hlow⟩ := approximates_sqrt ha hpos
  refine ⟨q, ?_, hlow⟩
  change IsRounded (map Float.sqrt a) q
  rw [map, ha.isNaN_eq]
  refine isRounded_ofResult ?_ hq
  rw [← toModel_toFloat ha.isNaN_eq]
  rfl

theorem unpack_neg (a : Double) : unpack Format.binary64 (-a).bits.toBitVec =
    (unpack Format.binary64 a.bits.toBitVec).neg := by
  have hbits : (-a).bits.toBitVec = a.bits.toBitVec ^^^ signBit.toBitVec := rfl
  have hexp : @unpackExponent Format.binary64 (-a).bits.toBitVec =
      @unpackExponent Format.binary64 a.bits.toBitVec := by
    rw [hbits, unpackExponent_def, unpackExponent_def, BitVec.extractLsb'_xor]
    exact BitVec.xor_zero
  have hman : @unpackMantissa Format.binary64 (-a).bits.toBitVec =
      @unpackMantissa Format.binary64 a.bits.toBitVec := by
    rw [hbits, unpackMantissa_def, unpackMantissa_def, BitVec.extractLsb'_xor]
    exact BitVec.xor_zero
  have hsign : Sign.ofBitVec (@unpackSign Format.binary64 (-a).bits.toBitVec) =
      -Sign.ofBitVec (@unpackSign Format.binary64 a.bits.toBitVec) := by
    rw [hbits, unpackSign_def, unpackSign_def, BitVec.extractLsb'_xor]
    generalize BitVec.extractLsb' _ 1 a.bits.toBitVec = s
    rcases BitVec.eq_zero_or_eq_one s with rfl | rfl <;> rfl
  unfold unpack
  dsimp only
  simp only [hexp, hman, hsign]
  split
  · split <;> rfl
  · split
    · split <;> rfl
    · rfl

theorem IsNumber.neg (h : a.IsNumber) : (-a).IsNumber := by
  rw [IsNumber, unpack_neg]
  exact IsCanonical.neg h

theorem value_neg (a : Double) : (-a).value = -a.value := by
  rw [value, unpack_neg, rational_neg]
  rfl

/-! ## Order -/

theorem compare_toFloat (ha : a.IsNumber) (hb : b.IsNumber) :
    a.toFloat.toModel.unpack.compare b.toFloat.toModel.unpack =
      some (compare a.value b.value) := by
  rw [toModel_toFloat ha.isNaN_eq, toModel_toFloat hb.isNaN_eq]
  exact compare_rational ha hb

theorem lt_iff (ha : a.IsNumber) (hb : b.IsNumber) : a < b ↔ a.value < b.value := by
  change decide ((a.toFloat.toModel.unpack.compare b.toFloat.toModel.unpack == some .lt) = true) =
    true ↔ _
  rw [compare_toFloat ha hb, decide_eq_true_iff, ← compare_lt_iff_lt]
  exact beq_iff_eq.trans (Option.some_inj)

theorem le_iff (ha : a.IsNumber) (hb : b.IsNumber) : a ≤ b ↔ a.value ≤ b.value := by
  change decide ((a.toFloat.toModel.unpack.compare b.toFloat.toModel.unpack).any
    (·.isLE) = true) = true ↔ _
  rw [compare_toFloat ha hb, decide_eq_true_iff, ← compare_le_iff_le]
  exact Ordering.isLE_iff_ne_gt

theorem IsRounded.eq (h : IsRounded a q) (hq : Representable q) : a.value = q :=
  le_antisymm (h.rounds.le hq le_rfl) (h.rounds.ge hq le_rfl)

/-! ## Numerals -/

theorem isNumber_zero : (0 : Double).IsNumber := by decide

theorem value_zero : (0 : Double).value = 0 := rfl

theorem isNumber_one : (1 : Double).IsNumber := by decide

theorem value_one : (1 : Double).value = 1 := by
  change (((2 ^ 52 + 0 : ℕ) : ℚ)) * 2 ^ (-52 : ℤ) = 1
  norm_num

theorem ofNat_eq {n : ℕ} (h : n < 2 ^ 53) :
    Float.ofNat n = n.toUInt64.toFloat * Float.ofBits 0x3ff0000000000000 :=
  dif_pos ⟨h, by decide⟩

theorem representable_natCast {n : ℕ} (h : n ≤ 2 ^ 53) : Representable n :=
  ⟨n, 0, by exact_mod_cast h, by norm_num, by simp⟩

/-- Natural numbers that are not too great are doubles. -/
theorem isNumber_natCast {n : ℕ} (h : n < 2 ^ 53) :
    (n : Double).IsNumber ∧ (n : Double).value = n := by
  have hn : Representable (n : ℚ) := representable_natCast h.le
  have hbound : |(n : ℚ)| ≤ 2 ^ (53 : ℤ) := by
    rw [abs_of_nonneg (Nat.cast_nonneg n)]
    exact_mod_cast h.le
  have hword : n.toUInt64.toNat = n := by
    rw [Nat.toUInt64, UInt64.toNat_ofNat']
    exact Nat.mod_eq_of_lt (h.trans (by norm_num))
  have hfirst : Approximates (UnpackedFloat.ofNat Format.binary64 n.toUInt64.toNat) (n : ℚ) := by
    have := approximates_normalize (n : ℤ) 0 .positive (d := 53) (by norm_num)
      (by simpa using hbound)
    rw [Int.cast_natCast, zpow_zero, mul_one] at this
    rw [hword]
    exact this
  have hunpack : n.toUInt64.toFloat.toModel.unpack =
      UnpackedFloat.ofNat Format.binary64 n.toUInt64.toNat := unpack_toModel rfl hfirst.canonical
  have hvalue : rational n.toUInt64.toFloat.toModel.unpack = n := by
    rw [hunpack]
    exact le_antisymm (hfirst.rounds.le hn le_rfl) (hfirst.rounds.ge hn le_rfl)
  have hone : rational (Float.ofBits 0x3ff0000000000000).toModel.unpack = 1 := value_one
  have hproduct := approximates_mul (u := n.toUInt64.toFloat.toModel.unpack)
    (v := (Float.ofBits 0x3ff0000000000000).toModel.unpack) (hunpack ▸ hfirst.canonical)
    isNumber_one (d := 53) (by norm_num) (by rwa [hvalue, hone, mul_one])
  rw [hvalue, hone, mul_one] at hproduct
  have hrounded : IsRounded (n : Double) n := by
    change IsRounded ⟨(Float.ofNat n).toBits⟩ n
    rw [ofNat_eq h]
    exact isRounded_toBits rfl hproduct
  exact ⟨hrounded.isNumber, hrounded.eq hn⟩

theorem isNumber_tiny : (Scalar.tiny : Double).IsNumber := by decide +kernel

theorem value_tiny : (Scalar.tiny : Double).value = 2 ^ (-52 : ℤ) := by
  have hbits : (Scalar.tiny : Double) = ⟨4372995238176751616⟩ := by decide +kernel
  rw [hbits]
  change ((4503599627370496 : ℕ) : ℚ) * 2 ^ (-104 : ℤ) = _
  norm_num

/-! ## Magnitudes -/

/-- The multiple of a power of two is a double, and not nearly the greatest one. -/
def Room (k : ℕ) (n : ℤ) : Prop := k ≤ 2 ^ 53 ∧ -1022 ≤ n ∧ n ≤ 970

instance (k : ℕ) (n : ℤ) : Decidable (Room k n) := inferInstanceAs (Decidable (_ ∧ _))

/-- A number whose distance from zero is at most `k` times the `n`-th power of two. -/
structure Within (k : ℕ) (n : ℤ) (a : Double) : Prop where
  isNumber : a.IsNumber
  le : |a.value| ≤ k * 2 ^ n

variable {k l : ℕ} {n m : ℤ}

theorem Within.mono (h : Within k n a) (hle : n ≤ m ∧ k ≤ l * 2 ^ (m - n).toNat) :
    Within l m a := by
  obtain ⟨hn, hk⟩ := hle
  refine ⟨h.isNumber, h.le.trans ?_⟩
  have hk : (k : ℚ) ≤ l * 2 ^ (m - n) := by
    rw [← Int.toNat_of_nonneg (by omega : 0 ≤ m - n), zpow_natCast]
    exact_mod_cast hk
  calc (k : ℚ) * 2 ^ n ≤ l * 2 ^ (m - n) * 2 ^ n :=
        mul_le_mul_of_nonneg_right hk (two_zpow_pos n).le
    _ = l * 2 ^ m := by rw [mul_assoc, ← two_zpow_add, sub_add_cancel]

theorem Within.widen (h : Within k n a) (hk : k ≤ l) : Within l n a :=
  h.mono ⟨le_rfl, by simpa using hk⟩

theorem representable_mul_two_zpow (hk : k ≤ 2 ^ 53) (hn : -1074 ≤ n) :
    Representable ((k : ℚ) * 2 ^ n) :=
  ⟨k, n, by exact_mod_cast hk, hn, by norm_cast⟩

theorem Room.le (h : Room k n) : (k : ℚ) * 2 ^ n ≤ 2 ^ (53 + n) := by
  have hk : (k : ℚ) ≤ 2 ^ (53 : ℤ) := by exact_mod_cast h.1
  rw [two_zpow_add]
  exact mul_le_mul_of_nonneg_right hk (two_zpow_pos n).le

theorem Room.mono (h : Room k n) (hk : l ≤ k) : Room l n := ⟨hk.trans h.1, h.2⟩

theorem Room.low (h : Room k n) : -1074 ≤ n := by
  have := h.2.1
  omega

theorem Room.high (h : Room k n) : 53 + n ≤ 1023 := by
  have := h.2.2
  omega

theorem IsRounded.within (h : IsRounded a q) (hroom : Room k n) (hq : |q| ≤ k * 2 ^ n) :
    Within k n a :=
  ⟨h.isNumber, h.rounds.abs_le_of_le (representable_mul_two_zpow hroom.1 hroom.low) hq⟩

theorem within_zero (k : ℕ) (n : ℤ) : Within k n (0 : Double) := by
  refine ⟨isNumber_zero, ?_⟩
  rw [value_zero, abs_zero]
  exact mul_nonneg (Nat.cast_nonneg k) (two_zpow_pos n).le

theorem within_one : Within 1 0 (1 : Double) :=
  ⟨isNumber_one, by rw [value_one]; norm_num⟩

theorem within_natCast {i : ℕ} (hi : i ≤ k) (hk : k < 2 ^ 53) : Within k 0 (i : Double) := by
  obtain ⟨hnumber, hvalue⟩ := isNumber_natCast (hi.trans_lt hk)
  refine ⟨hnumber, ?_⟩
  rw [hvalue, abs_of_nonneg (Nat.cast_nonneg i), zpow_zero, mul_one]
  exact_mod_cast hi

theorem within_numeral (i : ℕ) (hi : i < 2 ^ 53) : Within i 0 (i : Double) :=
  within_natCast le_rfl hi

theorem Within.neg (h : Within k n a) : Within k n (-a) := by
  refine ⟨h.isNumber.neg, ?_⟩
  rw [value_neg, abs_neg]
  exact h.le

theorem Within.add (ha : Within k n a) (hb : Within l n b) (hroom : Room (k + l) n) :
    Within (k + l) n (a + b) := by
  have hsum : |a.value + b.value| ≤ ((k + l : ℕ) : ℚ) * 2 ^ n := by
    rw [Nat.cast_add, add_mul]
    exact (abs_add_le _ _).trans (add_le_add ha.le hb.le)
  exact (isRounded_add ha.isNumber hb.isNumber hroom.high (hsum.trans hroom.le)).within hroom hsum

theorem Within.sub (ha : Within k n a) (hb : Within l n b) (hroom : Room (k + l) n) :
    Within (k + l) n (a - b) := by
  have hsum : |a.value - b.value| ≤ ((k + l : ℕ) : ℚ) * 2 ^ n := by
    rw [Nat.cast_add, add_mul]
    exact (abs_sub _ _).trans (add_le_add ha.le hb.le)
  exact (isRounded_sub ha.isNumber hb.isNumber hroom.high (hsum.trans hroom.le)).within hroom hsum

theorem Within.mul (ha : Within k n a) (hb : Within l m b) (hroom : Room (k * l) (n + m)) :
    Within (k * l) (n + m) (a * b) := by
  have hproduct : |a.value * b.value| ≤ ((k * l : ℕ) : ℚ) * 2 ^ (n + m) := by
    calc |a.value * b.value| = |a.value| * |b.value| := abs_mul _ _
      _ ≤ k * 2 ^ n * (l * 2 ^ m) := mul_le_mul ha.le hb.le (abs_nonneg _)
          (mul_nonneg (Nat.cast_nonneg k) (two_zpow_pos n).le)
      _ = ((k * l : ℕ) : ℚ) * 2 ^ (n + m) := by
        rw [Nat.cast_mul, two_zpow_add]
        ring
  exact (isRounded_mul ha.isNumber hb.isNumber hroom.high
    (hproduct.trans hroom.le)).within hroom hproduct

/-- A quotient by something that is not too small. -/
theorem Within.div (ha : Within k n a) (hb : b.IsNumber) (hlow : 2 ^ m ≤ |b.value|)
    (hroom : Room k (n - m)) : Within k (n - m) (a / b) := by
  have hpos := (two_zpow_pos m).trans_le hlow
  have hquotient : |a.value / b.value| ≤ (k : ℚ) * 2 ^ (n - m) := by
    rw [abs_div, div_le_iff₀ hpos]
    calc |a.value| ≤ k * 2 ^ n := ha.le
      _ = k * 2 ^ (n - m) * 2 ^ m := by rw [mul_assoc, ← two_zpow_add, sub_add_cancel]
      _ ≤ k * 2 ^ (n - m) * |b.value| := mul_le_mul_of_nonneg_left hlow
          (mul_nonneg (Nat.cast_nonneg k) (two_zpow_pos _).le)
  exact (isRounded_div ha.isNumber hb (abs_pos.1 hpos) hroom.high
    (hquotient.trans hroom.le)).within hroom hquotient

theorem Within.lesser (ha : Within k n a) (hb : Within k n b) :
    Within k n (Scalar.lesser a b) := by
  unfold Scalar.lesser
  split
  · exact ha
  · exact hb

theorem Within.greater (ha : Within k n a) (hb : Within k n b) :
    Within k n (Scalar.greater a b) := by
  unfold Scalar.greater
  split
  · exact ha
  · exact hb

theorem within_of_le (ha : a.IsNumber) (hb : Within k n b) (hlow : -b ≤ a) (hhigh : a ≤ b) :
    Within k n a := by
  rw [le_iff hb.isNumber.neg ha, value_neg] at hlow
  rw [le_iff ha hb.isNumber] at hhigh
  exact ⟨ha, (abs_le.2 ⟨hlow, hhigh⟩).trans ((le_abs_self _).trans hb.le)⟩

/-- A number cancels against itself. -/
theorem IsNumber.finite (h : a.IsNumber) : Scalar.Finite a := by
  have hdiff : IsRounded (a - a) (a.value - a.value) :=
    isRounded_sub h h (d := 0) (by norm_num) (by rw [sub_self, abs_zero]; norm_num)
  rw [sub_self] at hdiff
  have hvalue := hdiff.eq representable_zero
  refine ⟨(le_iff hdiff.isNumber isNumber_zero).2 ?_, (le_iff isNumber_zero hdiff.isNumber).2 ?_⟩
  · exact hvalue.le
  · exact hvalue.ge

theorem isRounded_half (h : Within k n a) (hroom : Room k n) :
    IsRounded (Scalar.half a) (a.value / 2) ∧ |a.value / 2| ≤ k * 2 ^ n := by
  obtain ⟨htwo, hvalue⟩ := isNumber_natCast (n := 2) (by norm_num)
  have hhalf : |a.value / 2| ≤ k * 2 ^ n := by
    rw [abs_div, abs_two]
    have := h.le
    have := abs_nonneg a.value
    linarith
  have hrounded := isRounded_div h.isNumber htwo (by rw [hvalue]; norm_num) hroom.high (by
    rw [hvalue]
    exact hhalf.trans hroom.le)
  rw [hvalue] at hrounded
  exact ⟨hrounded, hhalf⟩

theorem Within.half (h : Within k n a) (hroom : Room k n) : Within k n (Scalar.half a) :=
  (isRounded_half h hroom).1.within hroom (isRounded_half h hroom).2

/-! ## What rounding changes -/

/-- A number whose distance from zero is at most the `n`-th power of two, and whose distance from
the given number is at most `ε`. -/
structure Near (n : ℤ) (ε x : ℚ) (a : Double) : Prop where
  within : Within 1 n a
  le : |a.value - x| ≤ ε

variable {ε δ x y : ℚ}

theorem Within.abs_le (h : Within 1 n a) : |a.value| ≤ 2 ^ n := by
  have := h.le
  rwa [Nat.cast_one, one_mul] at this

theorem Within.near (h : Within 1 n a) : Near n 0 a.value a :=
  ⟨h, by rw [sub_self, abs_zero]⟩

theorem Near.mono (h : Near n ε x a) (hn : n ≤ m) : Near m ε x a :=
  ⟨h.within.mono ⟨hn, by rw [one_mul]; exact Nat.one_le_two_pow⟩, h.le⟩

/-- What is rounded is near to what it is rounded from, and to what that is near to. -/
theorem IsRounded.near (h : IsRounded a q) (hroom : Room 1 n) (hq : |q| ≤ 2 ^ n)
    (hx : |q - x| ≤ ε) : Near n (ε + 2 ^ (n - 52)) x a := by
  refine ⟨h.within hroom (by rwa [Nat.cast_one, one_mul]), ?_⟩
  have hrounds := h.rounds.abs_sub_le hroom.2.1 hq
  have := abs_sub_le a.value q x
  linarith

theorem two_mul_two_zpow (n : ℤ) : (2 : ℚ) ^ n + 2 ^ n = 2 ^ (n + 1) := by
  rw [two_zpow_add, zpow_one]
  ring

theorem Near.add (ha : Near n ε x a) (hb : Near n δ y b) (hroom : Room 1 (n + 1)) :
    Near (n + 1) (ε + δ + 2 ^ (n - 51)) (x + y) (a + b) := by
  have hsum : |a.value + b.value| ≤ 2 ^ (n + 1) := by
    rw [← two_mul_two_zpow]
    exact (abs_add_le _ _).trans (add_le_add ha.within.abs_le hb.within.abs_le)
  have hnear : |a.value + b.value - (x + y)| ≤ ε + δ := by
    rw [add_sub_add_comm]
    exact (abs_add_le _ _).trans (add_le_add ha.le hb.le)
  have := (isRounded_add ha.within.isNumber hb.within.isNumber (by have := hroom.2.2; omega)
    hsum).near hroom hsum hnear
  rwa [add_sub_assoc] at this

theorem Near.neg (h : Near n ε x a) : Near n ε (-x) (-a) := by
  refine ⟨h.within.neg, ?_⟩
  rw [value_neg, neg_sub_neg, abs_sub_comm]
  exact h.le

theorem Near.sub (ha : Near n ε x a) (hb : Near n δ y b) (hroom : Room 1 (n + 1)) :
    Near (n + 1) (ε + δ + 2 ^ (n - 51)) (x - y) (a - b) := by
  have hdiff : |a.value - b.value| ≤ 2 ^ (n + 1) := by
    rw [← two_mul_two_zpow]
    exact (abs_sub _ _).trans (add_le_add ha.within.abs_le hb.within.abs_le)
  have hnear : |a.value - b.value - (x - y)| ≤ ε + δ := by
    rw [sub_sub_sub_comm]
    exact (abs_sub _ _).trans (add_le_add ha.le hb.le)
  have := (isRounded_sub ha.within.isNumber hb.within.isNumber (by have := hroom.2.2; omega)
    hdiff).near hroom hdiff hnear
  rwa [add_sub_assoc] at this

theorem Near.half (h : Near n ε x a) (hroom : Room 1 n) :
    Near n (ε + 2 ^ (n - 52)) (x / 2) (Scalar.half a) := by
  obtain ⟨hrounded, hhalf⟩ := isRounded_half h.within hroom
  rw [Nat.cast_one, one_mul] at hhalf
  refine hrounded.near hroom hhalf ?_
  rw [← sub_div, abs_div, abs_two]
  have := h.le
  have := abs_nonneg (a.value - x)
  linarith

/-- Multiplication by something that is at most one. -/
theorem Near.mul (ha : Near n ε x a) (hb : Within 1 0 b) (hroom : Room 1 n) :
    Near n (ε + 2 ^ (n - 52)) (x * b.value) (a * b) := by
  have hone := hb.abs_le
  rw [zpow_zero] at hone
  have hproduct : |a.value * b.value| ≤ 2 ^ n := by
    rw [abs_mul]
    exact (mul_le_of_le_one_right (abs_nonneg _) hone).trans ha.within.abs_le
  have hnear : |a.value * b.value - x * b.value| ≤ ε := by
    rw [← sub_mul, abs_mul]
    exact (mul_le_of_le_one_right (abs_nonneg _) hone).trans ha.le
  exact (isRounded_mul ha.within.isNumber hb.isNumber (by have := hroom.2.2; omega)
    hproduct).near hroom hproduct hnear

/-- Multiplication of something that is at most one. -/
theorem Near.mul_left (hb : Near n ε x b) (ha : Within 1 0 a) (hroom : Room 1 n) :
    Near n (ε + 2 ^ (n - 52)) (a.value * x) (a * b) := by
  have hone := ha.abs_le
  rw [zpow_zero] at hone
  have hproduct : |a.value * b.value| ≤ 2 ^ n := by
    rw [abs_mul]
    exact (mul_le_of_le_one_left (abs_nonneg _) hone).trans hb.within.abs_le
  have hnear : |a.value * b.value - a.value * x| ≤ ε := by
    rw [← mul_sub, abs_mul]
    exact (mul_le_of_le_one_left (abs_nonneg _) hone).trans hb.le
  exact (isRounded_mul ha.isNumber hb.within.isNumber (by have := hroom.2.2; omega)
    hproduct).near hroom hproduct hnear

end Double

/-! ## Points -/

open Double

/-- Both coordinates are within the given distance from zero. -/
structure Point.Nearby (k : ℕ) (n : ℤ) (p : Point Double) : Prop where
  x : Within k n p.x
  y : Within k n p.y

namespace Point.Nearby

variable {k l : ℕ} {n m : ℤ} {p q : Point Double} {t : Double}

theorem mono (h : p.Nearby k n) (hle : n ≤ m ∧ k ≤ l * 2 ^ (m - n).toNat) : p.Nearby l m :=
  ⟨h.x.mono hle, h.y.mono hle⟩

theorem origin (k : ℕ) (n : ℤ) : Point.origin.Nearby k n := ⟨within_zero k n, within_zero k n⟩

theorem add (hp : p.Nearby k n) (hq : q.Nearby l n) (hroom : Room (k + l) n) :
    (p + q).Nearby (k + l) n :=
  ⟨hp.x.add hq.x hroom, hp.y.add hq.y hroom⟩

theorem sub (hp : p.Nearby k n) (hq : q.Nearby l n) (hroom : Room (k + l) n) :
    (p - q).Nearby (k + l) n :=
  ⟨hp.x.sub hq.x hroom, hp.y.sub hq.y hroom⟩

theorem mul (hp : p.Nearby k n) (ht : Within l m t) (hroom : Room (k * l) (n + m)) :
    (p * t).Nearby (k * l) (n + m) :=
  ⟨hp.x.mul ht hroom, hp.y.mul ht hroom⟩

end Point.Nearby

end Patchbay
