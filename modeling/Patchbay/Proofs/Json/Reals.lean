import Patchbay.Proofs.Json.Numbers

/-!
# Reals are read as they were written

A finite real is written as a literal, with a point or an exponent (`exists_literal_writeReal`). Its
value is worked out by rounded operations, which need not give the real again. Whether they do is
told by its text alone (`ReadsBack`), and then it holds in every longer text (`takes_writeReal`).
-/

namespace Patchbay

/-! ## Shortest decimals -/

namespace Decimal

/-- A zero is not scaled. -/
theorem exponent_trim {d : Decimal} (h : d.trim.digits = 0) : d.trim.exponent = 0 := by
  fun_induction Decimal.trim d with
  | case1 => rfl
  | case2 d _ _ ih => exact ih h
  | case3 d hne => exact absurd h hne

theorem exponent_shortest {x : Double} (h : (shortest x).digits = 0) :
    (shortest x).exponent = 0 := by
  unfold shortest at h ⊢
  split
  · rfl
  · rename_i hne
    rw [if_neg hne] at h
    exact exponent_trim h

end Decimal

namespace Json

open Reader

variable {d : Decimal} {x : Double} {blanks rest : List Char}

/-! ## Writing literals -/

def Literal.ofParts (isNegative : Bool) (whole fraction : List Char)
    (exponent : Option (Bool × List Char)) : Literal :=
  ⟨isNegative, whole, fraction, exponent, fraction.isEmpty && exponent.isNone⟩

theorem Literal.wellFormed_ofParts {isNegative : Bool} {whole fraction : List Char}
    {exponent : Option (Bool × List Char)} (hwhole : Whole whole)
    (hfraction : ∀ c ∈ fraction, isDigit c = true)
    (hexponent : ∀ x ∈ exponent, x.2 ≠ [] ∧ ∀ c ∈ x.2, isDigit c = true) :
    (ofParts isNegative whole fraction exponent).WellFormed :=
  ⟨hwhole, hfraction, hexponent, rfl⟩

/-- Digits with zeros before them have one at least before the point. -/
def padded (k places : Nat) : List Char :=
  List.replicate (places + 1 - (decimalDigits k).length) '0' ++ decimalDigits k

theorem isDigit_of_mem_padded {k places : Nat} {c : Char} (h : c ∈ padded k places) :
    isDigit c = true := by
  rcases List.mem_append.1 h with hc | hc
  · rw [List.eq_of_mem_replicate hc]
    rfl
  · exact isDigit_of_mem_decimalDigits hc

theorem whole_take_padded (k places : Nat) :
    Whole ((padded k places).take ((padded k places).length - places)) where
  digits c hc := isDigit_of_mem_padded (List.mem_of_mem_take hc)
  first := by
    obtain ⟨c, ds, hds, hzero⟩ := (whole_decimalDigits k).first
    by_cases hlen : (decimalDigits k).length ≤ places
    · -- the zero before the point is one that was put there
      obtain ⟨zeros, hzeros⟩ : ∃ n, places + 1 - (decimalDigits k).length = n + 1 :=
        ⟨places - (decimalDigits k).length, by omega⟩
      have htake : (padded k places).length - places = 1 := by
        simp only [padded, List.length_append, List.length_replicate]
        omega
      refine ⟨'0', [], ?_, fun _ => rfl⟩
      rw [htake, padded, hzeros]
      rfl
    · obtain ⟨n, hn⟩ : ∃ n, (decimalDigits k).length - places = n + 1 :=
        ⟨(decimalDigits k).length - places - 1, by omega⟩
      have hpadded : padded k places = decimalDigits k := by
        rw [padded, Nat.sub_eq_zero_of_le (by omega)]
        rfl
      refine ⟨c, ds.take n, ?_, fun hc => by rw [hzero hc, List.take_nil]⟩
      rw [hpadded, hn, hds, List.take_succ_cons]

/-- A decimal that is no scaled zero is written as a literal. -/
theorem exists_plainText (h : d.digits = 0 → d.exponent = 0) :
    ∃ whole fraction, plainText d = whole ++ '.' :: fraction ∧ Whole whole ∧ fraction ≠ [] ∧
      ∀ c ∈ fraction, isDigit c = true := by
  unfold plainText
  split
  · refine ⟨decimalDigits d.digits ++ List.replicate d.exponent.toNat '0', ['0'], by simp, ?_,
      by simp, by simp; rfl⟩
    constructor
    · intro c hc
      rcases List.mem_append.1 hc with hc | hc
      · exact isDigit_of_mem_decimalDigits hc
      · rw [List.eq_of_mem_replicate hc]
        rfl
    · obtain ⟨c, ds, hds, hzero⟩ := (whole_decimalDigits d.digits).first
      refine ⟨c, ds ++ List.replicate d.exponent.toNat '0', by rw [hds]; rfl, ?_⟩
      rintro rfl
      rw [hzero rfl, h (eq_zero_of_decimalDigits hds)]
      rfl
  · rename_i hexponent
    refine ⟨_, _, rfl, whole_take_padded d.digits (-d.exponent).toNat, ?_, fun c hc =>
      isDigit_of_mem_padded (List.mem_of_mem_drop hc)⟩
    have hlen : (-d.exponent).toNat < (padded d.digits (-d.exponent).toNat).length := by
      simp only [padded, List.length_append, List.length_replicate]
      omega
    have hdrop : (padded d.digits (-d.exponent).toNat).drop
        ((padded d.digits (-d.exponent).toNat).length - (-d.exponent).toNat) ≠ [] := by
      rw [← List.length_pos_iff, List.length_drop]
      omega
    exact hdrop

/-- A decimal with an exponent is a literal with one digit before the point. -/
theorem exists_exponentText (d : Decimal) :
    ∃ whole fraction exponent, exponentText d =
        whole ++ (Literal.fractionText fraction ++ Literal.exponentPart exponent) ∧
      Whole whole ∧ (∀ c ∈ fraction, isDigit c = true) ∧
      ∀ x ∈ exponent, x.2 ≠ [] ∧ ∀ c ∈ x.2, isDigit c = true := by
  obtain ⟨c, ds, hds, -⟩ := (whole_decimalDigits d.digits).first
  have hdigits := (whole_decimalDigits d.digits).digits
  rw [hds] at hdigits
  refine ⟨[c], ds, some (decide (d.leading < 0), decimalDigits d.leading.natAbs), ?_,
    ⟨fun x hx => ?_, c, [], rfl, fun _ => rfl⟩,
    fun x hx => hdigits x (List.mem_cons_of_mem c hx), ?_⟩
  · have hfraction : (if ds.isEmpty then [] else '.' :: ds) = Literal.fractionText ds := by
      cases ds <;> rfl
    simp only [exponentText, hds, List.tail_cons, List.take_succ_cons, List.take_zero, hfraction,
      Literal.exponentPart, decide_eq_true_eq, List.append_assoc, List.cons_append,
      List.nil_append]
  · rw [List.mem_singleton.1 hx]
    exact hdigits c (List.mem_cons_self ..)
  · intro x hx
    obtain rfl := Option.some.inj hx
    exact ⟨decimalDigits_ne_nil _, fun _ => isDigit_of_mem_decimalDigits⟩

/-- A finite real is written as a literal. -/
theorem exists_literal_writeReal (hx : ¬ (x.isNaN ∨ x.isInfinite)) :
    ∃ l : Literal, l.WellFormed ∧ writeReal x = l.text := by
  have hsize : ∃ whole fraction exponent,
      (if isPlain (Decimal.shortest x).leading then plainText (Decimal.shortest x)
        else exponentText (Decimal.shortest x)) =
          whole ++ (Literal.fractionText fraction ++ Literal.exponentPart exponent) ∧
      Whole whole ∧ (∀ c ∈ fraction, isDigit c = true) ∧
      ∀ x ∈ exponent, x.2 ≠ [] ∧ ∀ c ∈ x.2, isDigit c = true := by
    split
    · obtain ⟨whole, fraction, htext, hwhole, hne, hfraction⟩ :=
        exists_plainText (d := Decimal.shortest x) Decimal.exponent_shortest
      refine ⟨whole, fraction, none, ?_, hwhole, hfraction, nofun⟩
      rw [htext, Literal.fractionText, if_neg hne, Literal.exponentPart, List.append_nil]
    · exact exists_exponentText _
  obtain ⟨whole, fraction, exponent, htext, hwhole, hfraction, hexponent⟩ := hsize
  refine ⟨.ofParts x.isNegative whole fraction exponent,
    Literal.wellFormed_ofParts hwhole hfraction hexponent, ?_⟩
  rw [writeReal, if_neg hx]
  simp only [htext, Literal.text, Literal.ofParts]
  cases x.isNegative <;> rfl

/-! ## Reading them again -/

/-- The real that a number is read as. -/
def Number.toDouble : Number → Double
  | .integer n => if n < 0 then -(n.natAbs : Double) else n.natAbs
  | .real x => x

theorem takes_real {l : Literal} {n : Number} (h : l.WellFormed) (hvalue : l.value = .ok n)
    (hblanks : ∀ y ∈ blanks, isBlank y = true) (hrest : Ends rest) :
    Takes Codec.real.read (blanks ++ (l.text ++ rest)) n.toDouble rest := by
  refine (takes_readNumber h hvalue hblanks hrest).bind ?_
  cases n <;> exact .pure _ _

theorem fails_real {l : Literal} {unread : Nat} (h : l.WellFormed)
    (hvalue : l.value = .error unread) (hrest : Ends rest) :
    Fails Codec.real.read (l.text ++ rest) :=
  (fails_readNumber h hvalue hrest).bind _

/-- The text of the real is read as the real. -/
def ReadsBack (x : Double) : Prop :=
  Reader.readAll Codec.real.read (String.ofList (writeReal x)) = .ok x

/-- A finite real that reads back alone reads back in every text. -/
theorem takes_writeReal (hx : ¬ (x.isNaN ∨ x.isInfinite)) (hback : ReadsBack x)
    (hblanks : ∀ y ∈ blanks, isBlank y = true) (hrest : Ends rest) :
    Takes Codec.real.read (blanks ++ (writeReal x ++ rest)) x rest := by
  obtain ⟨l, hl, htext⟩ := exists_literal_writeReal hx
  have halone : (String.ofList (writeReal x)).toList = [] ++ (l.text ++ []) := by
    rw [String.toList_ofList, htext, List.append_nil, List.nil_append]
  cases hvalue : l.value with
  | ok n =>
    have hread : Takes Codec.real.read (String.ofList (writeReal x)).toList n.toDouble [] := by
      rw [halone]
      exact takes_real hl hvalue (List.forall_mem_nil _) ends_nil
    rw [ReadsBack, hread.readAll] at hback
    rw [htext, ← Except.ok.inj hback]
    exact takes_real hl hvalue hblanks hrest
  | error unread =>
    have hfails : Fails Codec.real.read (String.ofList (writeReal x)).toList := by
      rw [halone]
      exact fails_real hl hvalue ends_nil
    exact absurd hback hfails.readAll

end Json

end Patchbay
