import Patchbay.Json.Text
import Patchbay.Proofs.Json.Reading

/-!
# Strings are read as they were written

A character is written as itself or as an escape, and what is written for it is read as that
character (`takes_textBody_writeChar`). So a string of any characters reads back
(`takes_quoted_writeText`).
-/

namespace Patchbay

namespace Json

namespace Reader

variable {c letter : Char} {cs rest more : List Char} {fuel : Nat}

/-! ## Escapes -/

theorem escapeLetter?_ne_u (h : escapeLetter? c = some letter) : letter ≠ 'u' := by
  unfold escapeLetter? at h
  split at h <;> cases h <;> decide

/-- A letter after a backslash is read as the character that it is written for. -/
theorem takes_escape_letter (h : escapeLetter? c = some letter) :
    Takes escape (letter :: rest) c rest := by
  refine .get fun i => ?_
  have hu := escapeLetter?_ne_u h
  split
  · rename_i heq
    cases heq
  · rename_i heq
    cases heq
    exact absurd rfl hu
  · rename_i heq
    cases heq
    rw [unescape?_of_escapeLetter? h]
    exact (takes_advance letter rest).bind (.pure c rest)

/-- Four digits are read as the unit that they are written for. -/
theorem takes_unit {n : Nat} (hn : n < 256) :
    Takes unit ('0' :: '0' :: Text.hexDigit (n / 16) :: Text.hexDigit (n % 16) :: rest) n rest := by
  have hhigh := Text.hexValue?_hexDigit (n / 16) (by omega)
  have hlow := Text.hexValue?_hexDigit (n % 16) (by omega)
  have hzero : Text.hexValue? '0' = some 0 := rfl
  refine .get fun i => ?_
  simp only [hhigh, hlow, hzero]
  have hvalue : ((0 * 16 + 0) * 16 + n / 16) * 16 + n % 16 = n := by omega
  rw [hvalue]
  exact fun _ => ⟨_, rfl⟩

/-- A control character is read from its unit. -/
theorem takes_escape_unit (hc : c < ' ') :
    Takes escape ('u' :: '0' :: '0' :: Text.hexDigit (c.toNat / 16) ::
      Text.hexDigit (c.toNat % 16) :: rest) c rest := by
  have hlt : c.toNat < 32 := hc
  refine .get fun i => (takes_advance _ _).bind ((takes_unit (by omega)).bind ?_)
  have hleading : isLeading c.toNat = false := by simp [isLeading]; omega
  have htrailing : isTrailing c.toNat = false := by simp [isTrailing]; omega
  simp only [hleading, htrailing, Bool.false_eq_true, if_false, Char.ofNat_toNat]
  exact .pure c rest

/-! ## Strings -/

/-- What is written for a character is read as the character. -/
theorem takes_textBody_writeChar (h : Takes (textBody fuel) more cs rest) :
    Takes (textBody (fuel + 1)) (writeChar c ++ more) (c :: cs) rest := by
  unfold writeChar
  split
  · rename_i letter hletter
    exact .get fun i => (takes_advance _ _).bind ((takes_escape_letter hletter).bind h.map)
  · rename_i hplain
    split
    · rename_i hcontrol
      exact .get fun i => (takes_advance _ _).bind ((takes_escape_unit hcontrol).bind h.map)
    · rename_i hcontrol
      refine .get fun i => ?_
      split
      · rename_i heq
        cases heq
      · rename_i heq
        cases heq
        cases hplain
      · rename_i heq
        cases heq
        cases hplain
      · rename_i heq
        cases heq
        rw [if_neg hcontrol]
        exact (takes_advance c more).bind h.map

theorem takes_textBody (cs rest : List Char) (hfuel : cs.length < fuel) :
    Takes (textBody fuel) (cs.flatMap writeChar ++ '"' :: rest) cs rest := by
  induction cs generalizing fuel with
  | nil =>
    obtain ⟨fuel, rfl⟩ : ∃ k, fuel = k + 1 := ⟨fuel - 1, by simp at hfuel; omega⟩
    exact .get fun i => (takes_advance _ _).bind (.pure _ _)
  | cons c cs ih =>
    obtain ⟨fuel, rfl⟩ : ∃ k, fuel = k + 1 := ⟨fuel - 1, by simp at hfuel; omega⟩
    rw [List.flatMap_cons, List.append_assoc]
    exact takes_textBody_writeChar (ih (Nat.lt_of_succ_lt_succ hfuel))

theorem writeChar_ne_nil (c : Char) : writeChar c ≠ [] := by
  unfold writeChar
  split
  · exact List.cons_ne_nil _ _
  · split <;> exact List.cons_ne_nil _ _

/-- Every character takes room. -/
theorem length_le_length_flatMap_writeChar (cs : List Char) :
    cs.length ≤ (cs.flatMap writeChar).length := by
  induction cs with
  | nil => exact Nat.le_refl _
  | cons c cs ih =>
    have hpos := List.length_pos_iff.2 (writeChar_ne_nil c)
    rw [List.flatMap_cons, List.length_append, List.length_cons]
    omega

/-- A string reads back. -/
theorem takes_quoted_writeText (s : String) (rest : List Char) :
    Takes quoted (writeText s ++ rest) s rest := by
  have htext : writeText s ++ rest = '"' :: (s.toList.flatMap writeChar ++ '"' :: rest) := by
    simp [writeText]
  rw [htext]
  refine (takes_advance _ _).bind ((takes_rounds _).bind ?_)
  have hlength := length_le_length_flatMap_writeChar s.toList
  have hfuel : s.toList.length < (s.toList.flatMap writeChar ++ '"' :: rest).length + 1 := by
    rw [List.length_append]
    omega
  have h := (takes_textBody s.toList rest hfuel).map (g := String.ofList)
  rwa [String.ofList_toList] at h

end Reader

end Json

end Patchbay
