import Mathlib.Data.Nat.Digits.Defs
import Patchbay.Json.Codec
import Patchbay.Proofs.Json.Reading

/-!
# Numbers are read as they were written

A `Literal` says what the parts of a number are. What is read off the text of a literal is the
literal, whatever comes after it (`takes_literal_text`), so a number means in a longer text what it
means alone. A natural number is written as a literal with its value (`takes_readNatural`).
-/

namespace Patchbay

namespace Json

open Reader

/-! ## Literals -/

/-- Digits that may stand before a point: there is one at least, and a zero comes alone. -/
structure Whole (cs : List Char) : Prop where
  digits : ∀ c ∈ cs, isDigit c = true
  first : ∃ c ds, cs = c :: ds ∧ (c = '0' → ds = [])

namespace Literal

/-- The point and the digits after it, if there are any. -/
def fractionText (fraction : List Char) : List Char :=
  if fraction = [] then [] else '.' :: fraction

/-- The exponent with its sign, if there is one. -/
def exponentPart : Option (Bool × List Char) → List Char
  | none => []
  | some (isNegative, digits) => 'e' :: (if isNegative then '-' else '+') :: digits

def text (l : Literal) : List Char :=
  (if l.isNegative then ['-'] else []) ++
    (l.whole ++ (fractionText l.fraction ++ exponentPart l.exponent))

/-- The parts of a literal are such as are written. -/
structure WellFormed (l : Literal) : Prop where
  whole : Whole l.whole
  fraction_digits : ∀ c ∈ l.fraction, isDigit c = true
  exponent_digits : ∀ x ∈ l.exponent, x.2 ≠ [] ∧ ∀ c ∈ x.2, isDigit c = true
  isWhole_eq : l.isWhole = (l.fraction.isEmpty && l.exponent.isNone)

end Literal

variable {cs rest fraction : List Char} {exponent : Option (Bool × List Char)} {l : Literal}
  {atEnd : Reason}

/-! ## What ends the parts of a literal -/

theorem Reader.Ends.not_number (h : Ends rest) :
    ∀ x ∈ rest.head?, isDigit x = false ∧ x ≠ '.' ∧ x ≠ 'e' ∧ x ≠ 'E' := by
  intro x hx
  rcases h x hx with rfl | rfl <;> decide

theorem head?_exponentPart (h : Ends rest) :
    ∀ x ∈ (Literal.exponentPart exponent ++ rest).head?, isDigit x = false ∧ x ≠ '.' := by
  cases exponent with
  | none => exact fun x hx => ⟨(h.not_number x hx).1, (h.not_number x hx).2.1⟩
  | some e =>
    rintro x hx
    obtain rfl := Option.some.inj hx
    decide

theorem head?_fractionText (h : Ends rest) :
    ∀ x ∈ (Literal.fractionText fraction ++ (Literal.exponentPart exponent ++ rest)).head?,
      isDigit x = false := by
  unfold Literal.fractionText
  split
  · exact fun x hx => (head?_exponentPart h x hx).1
  · rintro x hx
    obtain rfl := Option.some.inj hx
    decide

/-! ## Reading the parts -/

theorem takes_digits (hne : cs ≠ []) (hcs : ∀ c ∈ cs, isDigit c = true)
    (hrest : ∀ x ∈ rest.head?, isDigit x = false) : Takes (digits atEnd) (cs ++ rest) cs rest := by
  obtain ⟨c, cs, rfl⟩ := List.exists_cons_of_ne_nil hne
  refine .get fun i => ?_
  have hc := hcs c (List.mem_cons_self ..)
  simp only [List.cons_append, hc, if_true]
  exact takes_takeWhile_append hcs hrest

theorem takes_wholeDigits (h : Whole cs) (hrest : ∀ x ∈ rest.head?, isDigit x = false) :
    Takes (wholeDigits atEnd) (cs ++ rest) cs rest := by
  obtain ⟨c, ds, rfl, hzero⟩ := h.first
  refine .get fun i => ?_
  split
  · rename_i x more heq
    obtain ⟨rfl, hmore⟩ := List.cons.inj heq
    obtain rfl := hzero rfl
    obtain rfl : rest = x :: more := hmore
    refine (takes_advance _ _).bind ?_
    rw [hrest x rfl]
    exact .pure _ _
  · exact takes_digits (List.cons_ne_nil c ds) h.digits hrest

theorem takes_fractionDigits (hcs : ∀ c ∈ fraction, isDigit c = true)
    (hrest : ∀ x ∈ rest.head?, isDigit x = false ∧ x ≠ '.') :
    Takes (fractionDigits atEnd) (Literal.fractionText fraction ++ rest)
      (if fraction = [] then none else some fraction) rest := by
  refine .get fun i => ?_
  cases fraction with
  | nil =>
    split
    · rename_i heq
      obtain rfl : rest = _ := heq
      exact absurd rfl (hrest '.' rfl).2
    · exact .pure _ _
  | cons c cs =>
    exact (takes_advance _ _).bind
      (takes_digits (List.cons_ne_nil c cs) hcs fun x hx => (hrest x hx).1).map

theorem takes_exponentSign (isNegative : Bool) (rest : List Char) :
    Takes exponentSign ((if isNegative then '-' else '+') :: rest) isNegative rest := by
  cases isNegative <;> exact .get fun i => (takes_advance _ _).bind (.pure _ _)

theorem takes_exponentDigits (hcs : ∀ x ∈ exponent, x.2 ≠ [] ∧ ∀ c ∈ x.2, isDigit c = true)
    (hrest : Ends rest) :
    Takes (exponentDigits atEnd) (Literal.exponentPart exponent ++ rest) exponent rest := by
  refine .get fun i => ?_
  cases exponent with
  | none =>
    have hhead : ¬ (rest.head? = some 'e' ∨ rest.head? = some 'E') := by
      rintro (h | h)
      · exact absurd rfl (hrest.not_number _ h).2.2.1
      · exact absurd rfl (hrest.not_number _ h).2.2.2
    dsimp only [Literal.exponentPart, List.nil_append]
    rw [if_neg hhead]
    exact .pure _ _
  | some e =>
    obtain ⟨isNegative, ds⟩ := e
    obtain ⟨hne, hds⟩ := hcs _ rfl
    exact (takes_advance _ _).bind ((takes_exponentSign isNegative _).bind
      (takes_digits hne hds fun x hx => (hrest.not_number x hx).1).map)

/-- What is read off the text of a literal is the literal. -/
theorem takes_literal_text (h : l.WellFormed) (hrest : Ends rest) :
    Takes (literal atEnd) (l.text ++ rest) l rest := by
  obtain ⟨isNegative, whole, fraction, exponent, isWhole⟩ := l
  have htail : Takes (do
      let whole ← wholeDigits atEnd
      let fraction ← fractionDigits atEnd
      let exponent ← exponentDigits atEnd
      return (⟨isNegative, whole, fraction.getD [], exponent, fraction.isNone ∧ exponent.isNone⟩ :
        Literal))
      (whole ++ (Literal.fractionText fraction ++ (Literal.exponentPart exponent ++ rest)))
      ⟨isNegative, whole, fraction, exponent, isWhole⟩ rest := by
    refine (takes_wholeDigits h.whole (head?_fractionText hrest)).bind
      ((takes_fractionDigits h.fraction_digits (head?_exponentPart hrest)).bind
        ((takes_exponentDigits h.exponent_digits hrest).bind ?_))
    have hisWhole : isWhole = (fraction.isEmpty && exponent.isNone) := h.isWhole_eq
    have hsame : (if fraction = [] then none else some fraction).getD [] = fraction ∧
        (if fraction = [] then none else some fraction).isNone = fraction.isEmpty := by
      cases fraction <;> exact ⟨rfl, rfl⟩
    rw [hsame.1, hsame.2, hisWhole]
    simp only [Bool.decide_and, Bool.decide_eq_true]
    exact .pure _ _
  simp only [Literal.text, List.append_assoc]
  cases isNegative with
  | true => exact .get fun i => (takes_advance _ _).bind htail
  | false =>
    have hminus : ¬ (whole ++ (Literal.fractionText fraction ++
        (Literal.exponentPart exponent ++ rest))).head? = some '-' := by
      obtain ⟨c, cs, heq, -⟩ := h.whole.first
      obtain rfl : whole = c :: cs := heq
      intro hc
      obtain rfl := Option.some.inj hc
      exact absurd (h.whole.digits '-' (List.mem_cons_self ..)) (by decide)
    refine .get fun i => ?_
    simp only [Bool.false_eq_true, if_false, List.nil_append, hminus, decide_false]
    exact htail

/-! ## Reading numbers -/

theorem Literal.WellFormed.exists_first (h : l.WellFormed) : ∃ c cs, l.text = c :: cs ∧
    (c = '-' ∨ isDigit c = true) := by
  obtain ⟨c, cs, hwhole, -⟩ := h.whole.first
  rw [Literal.text, hwhole]
  cases l.isNegative with
  | true => exact ⟨'-', _, rfl, .inl rfl⟩
  | false => exact ⟨c, _, rfl, .inr (h.whole.digits c (hwhole ▸ List.mem_cons_self ..))⟩

/-- The first character of a number is no blank. -/
theorem isBlank_eq_false {c : Char} (h : c = '-' ∨ isDigit c = true) : isBlank c = false := by
  rcases h with rfl | h
  · rfl
  · simp only [isBlank, decide_eq_false_iff_not]
    rintro (rfl | rfl | rfl | rfl) <;> exact absurd h (by decide)

variable {n : Number} {blanks : List Char} {expected : String}

theorem takes_number (h : l.WellFormed) (hvalue : l.value = .ok n) (hrest : Ends rest) :
    Takes number (l.text ++ rest) n rest := by
  refine (takes_literal_text h hrest).bind ?_
  rw [hvalue]
  exact .pure n rest

theorem fails_number {unread : Nat} (h : l.WellFormed) (hvalue : l.value = .error unread)
    (hrest : Ends rest) : Fails number (l.text ++ rest) := by
  refine (takes_literal_text h hrest).fails ?_
  rw [hvalue]
  exact fun i => ⟨_, rfl⟩

theorem takes_readNumber (h : l.WellFormed) (hvalue : l.value = .ok n)
    (hblanks : ∀ y ∈ blanks, isBlank y = true) (hrest : Ends rest) :
    Takes (Codec.readNumber expected) (blanks ++ (l.text ++ rest)) n rest := by
  obtain ⟨c, cs, htext, hc⟩ := h.exists_first
  have hnumber := takes_number h hvalue hrest
  rw [htext] at hnumber ⊢
  refine (takes_look _ hblanks (isBlank_eq_false hc)).bind ?_
  rw [if_pos hc]
  exact hnumber

theorem fails_readNumber {unread : Nat} (h : l.WellFormed) (hvalue : l.value = .error unread)
    (hrest : Ends rest) : Fails (Codec.readNumber expected) (l.text ++ rest) := by
  obtain ⟨c, cs, htext, hc⟩ := h.exists_first
  have hnumber := fails_number h hvalue hrest
  rw [htext] at hnumber ⊢
  refine (takes_look_self _ (isBlank_eq_false hc)).fails ?_
  rw [if_pos hc]
  exact hnumber

/-! ## Natural numbers -/

theorem isDigit_eq (c : Char) : isDigit c = c.isDigit := by
  simp only [isDigit, Char.isDigit, Bool.decide_and]
  rfl

theorem isDigit_of_mem_decimalDigits {k : Nat} {c : Char} (h : c ∈ decimalDigits k) :
    isDigit c = true := by
  rw [isDigit_eq]
  exact Nat.isDigit_of_mem_toDigits (by decide) (by decide) h

theorem decimalDigits_ne_nil (k : Nat) : decimalDigits k ≠ [] := Nat.toDigits_ne_nil

/-- The digits of a number above nine, from those of the number without its last digit. -/
theorem decimalDigits_eq (k : Nat) : decimalDigits k =
    if k < 10 then [k.digitChar] else decimalDigits (k / 10) ++ [(k % 10).digitChar] :=
  Nat.toDigits_eq_if (by decide)

theorem digitValue_digitChar {k : Nat} (h : k < 10) : digitValue k.digitChar = k := by
  rw [digitValue, Nat.toNat_digitChar_of_lt_ten h]
  exact Nat.add_sub_cancel_left 48 k

/-- Only zero begins with a zero. -/
theorem eq_zero_of_decimalDigits {k : Nat} (h : decimalDigits k = '0' :: cs) : k = 0 := by
  induction k using Nat.strongRecOn generalizing cs with
  | ind k ih =>
    rw [decimalDigits_eq] at h
    split at h
    · rename_i hlt
      have hvalue := digitValue_digitChar hlt
      rw [(List.cons.inj h).1] at hvalue
      exact hvalue.symm
    · rename_i hge
      obtain ⟨c, ds, hds⟩ := List.exists_cons_of_ne_nil (decimalDigits_ne_nil (k / 10))
      rw [hds, List.cons_append] at h
      have hzero := ih (k / 10) (by omega) (hds.trans (by rw [(List.cons.inj h).1]))
      omega

theorem whole_decimalDigits (k : Nat) : Whole (decimalDigits k) where
  digits _ hc := isDigit_of_mem_decimalDigits hc
  first := by
    obtain ⟨c, ds, hds⟩ := List.exists_cons_of_ne_nil (decimalDigits_ne_nil k)
    refine ⟨c, ds, hds, ?_⟩
    rintro rfl
    obtain rfl := eq_zero_of_decimalDigits hds
    exact ((List.cons.inj hds).2).symm

/-! ## Accumulating digits -/

theorem accumulate_append {limit k m : Nat} {ds : List Char} (h : accumulate limit k cs = (m, [])) :
    accumulate limit k (cs ++ ds) = accumulate limit m ds := by
  induction cs generalizing k with
  | nil =>
    cases h
    rfl
  | cons c cs ih =>
    simp only [List.cons_append, accumulate] at h ⊢
    split at h
    · rename_i hlt
      rw [if_pos hlt]
      exact ih h
    · cases h

/-- The digits of a number below the limit come to the number. -/
theorem accumulate_decimalDigits {limit k : Nat} (hk : k < limit) :
    accumulate limit 0 (decimalDigits k) = (k, []) := by
  induction k using Nat.strongRecOn with
  | ind k ih =>
    rw [decimalDigits_eq]
    split
    · rename_i hlt
      simp only [accumulate, digitValue_digitChar hlt, Nat.mul_zero, Nat.zero_add, if_pos hk]
    · have hlast : 10 * (k / 10) + digitValue (k % 10).digitChar = k := by
        rw [digitValue_digitChar (Nat.mod_lt k (by decide))]
        omega
      rw [accumulate_append (ih (k / 10) (by omega) (by omega))]
      simp only [accumulate, hlast, if_pos hk]

def Literal.ofNat (k : Nat) : Literal := ⟨false, decimalDigits k, [], none, true⟩

theorem Literal.text_ofNat (k : Nat) : (Literal.ofNat k).text = decimalDigits k :=
  List.append_nil _

theorem Literal.wellFormed_ofNat (k : Nat) : (Literal.ofNat k).WellFormed where
  whole := whole_decimalDigits k
  fraction_digits := List.forall_mem_nil _
  exponent_digits := nofun
  isWhole_eq := rfl

theorem Literal.value_ofNat {k : Nat} (hk : k < UInt64.size) :
    (Literal.ofNat k).value = .ok (.integer k) := by
  have hparts : (Literal.ofNat k).parts = (k, 0) := by
    simp only [Literal.parts, Literal.ofNat, accumulate_decimalDigits hk]
    rfl
  rw [Literal.value, hparts]
  rfl

/-- A natural number below the limit reads back. -/
theorem takes_readNatural {limit k : Nat} (hk : k < limit) (hlimit : limit ≤ UInt64.size)
    (hblanks : ∀ y ∈ blanks, isBlank y = true) (hrest : Ends rest) :
    Takes (Codec.readNatural limit expected) (blanks ++ (decimalDigits k ++ rest)) k rest := by
  have hvalue := Literal.value_ofNat (Nat.lt_of_lt_of_le hk hlimit)
  have hnumber : Takes (Codec.readNumber expected) _ _ _ :=
    takes_readNumber (Literal.wellFormed_ofNat k) hvalue hblanks hrest
  rw [Literal.text_ofNat] at hnumber
  refine hnumber.bind ?_
  have hrange : (0 : Int) ≤ k ∧ (k : Int) < limit := by omega
  simp only [hrange, and_self, if_true]
  exact .pure k rest

end Json

end Patchbay
