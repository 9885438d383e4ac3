import Mathlib.Data.List.DropRight
import Patchbay.Report

/-!
# Where reports point

A fault in a text has a place, the line and the number of its byte in that line. To draw a report
the place is turned back into an offset. The offset is the number of bytes that stand before the
byte (`byteOffset_placeOfByte`), while reports are drawn at the character of that number. The two
are the same where every character before has one byte; behind a longer character, on the line or on
one above it, the report points too far.
-/

namespace Patchbay

namespace Text

variable {c : Char} {before after cs : List Char}

/-! ## Counting bytes -/

@[simp] theorem byteCount_nil : byteCount [] = 0 := rfl

theorem foldl_utf8Size (n : Nat) (cs : List Char) :
    cs.foldl (fun n c => n + c.utf8Size) n = n + byteCount cs := by
  induction cs generalizing n with
  | nil => rfl
  | cons c cs ih => rw [byteCount, List.foldl_cons, List.foldl_cons, ih, ih (0 + c.utf8Size),
      Nat.zero_add, Nat.add_assoc]

@[simp] theorem byteCount_cons (c : Char) (cs : List Char) :
    byteCount (c :: cs) = c.utf8Size + byteCount cs := by
  rw [byteCount, List.foldl_cons, foldl_utf8Size, Nat.zero_add]

@[simp] theorem byteCount_append (before after : List Char) :
    byteCount (before ++ after) = byteCount before + byteCount after := by
  rw [byteCount, List.foldl_append, foldl_utf8Size]
  rfl

theorem utf8ByteSize_ofList (cs : List Char) : (String.ofList cs).utf8ByteSize = byteCount cs := by
  induction cs with
  | nil => rfl
  | cons c cs ih =>
    have hfront : String.ofList (c :: cs) = String.singleton c ++ String.ofList cs := by
      rw [String.singleton_eq_ofList, ← String.ofList_append]
      rfl
    rw [hfront, String.utf8ByteSize_append, String.utf8ByteSize_singleton, ih, byteCount_cons]

theorem length_le_byteCount (cs : List Char) : cs.length ≤ byteCount cs := by
  induction cs with
  | nil => exact le_rfl
  | cons c cs ih =>
    have hpos : 0 < c.utf8Size := c.utf8Size_pos
    rw [List.length_cons, byteCount_cons]
    omega

/-- There are as many bytes as characters just if every character has one byte. -/
theorem byteCount_eq_length_iff (cs : List Char) :
    byteCount cs = cs.length ↔ ∀ c ∈ cs, c.utf8Size = 1 := by
  induction cs with
  | nil => simp
  | cons c cs ih =>
    have hpos : 0 < c.utf8Size := c.utf8Size_pos
    have hle : cs.length ≤ byteCount cs := length_le_byteCount cs
    rw [List.forall_mem_cons, ← ih, List.length_cons, byteCount_cons]
    omega

/-! ## The place of a byte -/

def lastLine (before : List Char) : List Char := before.rtakeWhile (· ≠ '\n')

@[simp] theorem lastLine_nil : lastLine [] = [] := rfl

theorem lastLine_concat (before : List Char) (c : Char) :
    lastLine (before ++ [c]) = if c = '\n' then [] else lastLine before ++ [c] := by
  by_cases hc : c = '\n'
  · simp [lastLine, hc]
  · simp [lastLine, hc]

/-- The place of the byte with number `k` of the character that follows `before`. -/
def placeOfByte (before : List Char) (k : Nat) : Place :=
  ⟨before.count '\n' + 1, byteCount (lastLine before) + k + 1⟩

end Text

open Text

namespace Json

variable {c : Char} {before after : List Char} {k : Nat}

/-- Behind `before` the lines and the bytes of the last one have been counted. -/
theorem placeAfter_append (before after : List Char) (i : Nat) :
    placeAfter ⟨1, 0⟩ (byteCount before + i) (before ++ after) =
      placeAfter ⟨before.count '\n' + 1, byteCount (lastLine before)⟩ i after := by
  induction before using List.reverseRecOn generalizing after i with
  | nil => simp
  | append_singleton before c ih =>
    have hlong : ¬ c.utf8Size + i < c.utf8Size := by
      omega
    have hsum : byteCount (before ++ [c]) + i = byteCount before + (c.utf8Size + i) := by
      rw [byteCount_append, byteCount_cons, byteCount_nil]
      omega
    rw [hsum, List.append_assoc, List.singleton_append, ih, placeAfter, if_neg hlong,
      Nat.add_sub_cancel_left, lastLine_concat, List.count_append]
    by_cases hc : c = '\n'
    · simp [hc]
    · simp [hc]

/-- A fault behind a byte has the place of the byte. A line feed has none on its line: behind it the
next line has begun. -/
theorem Fault.place_eq_placeOfByte (f : Fault) (hk : k < c.utf8Size) (hc : c ≠ '\n')
    (hf : f.index = byteCount before + k + 1) :
    f.place (String.ofList (before ++ c :: after)) = placeOfByte before k := by
  rw [Fault.place, hf, String.toList_ofList, Nat.add_assoc, placeAfter_append, placeAfter]
  by_cases hlast : k + 1 < c.utf8Size
  · rw [if_pos hlast]
    rfl
  · have hend : k + 1 = c.utf8Size := by
      omega
    rw [if_neg hlast, if_neg hc, hend, Nat.sub_self, placeOfByte, Nat.add_assoc, hend]
    cases after with
    | nil => rfl
    | cons d after =>
      rw [placeAfter, if_pos d.utf8Size_pos]
      rfl

end Json

namespace Report

variable {c : Char} {before after : List Char} {k : Nat}

/-! ## The offset of a report -/

theorem bytesBefore_line (before after : List Char) :
    bytesBefore (before.count '\n' + 1) (before ++ '\n' :: after) = byteCount before + 1 := by
  induction before with
  | nil =>
    simp only [List.count_nil, List.nil_append, bytesBefore, if_true, byteCount_nil]
    rfl
  | cons c before ih =>
    rw [List.cons_append, bytesBefore, byteCount_cons, Nat.add_assoc, ← ih]
    by_cases hc : c = '\n'
    · rw [if_pos hc, hc, List.count_cons_self]
    · rw [if_neg hc, List.count_cons_of_ne hc]

/-- The bytes before the last line of `before`, and those on it, are all of its bytes. -/
theorem bytesBefore_add_lastLine (before after : List Char) :
    bytesBefore (before.count '\n') (before ++ after) + byteCount (lastLine before) =
      byteCount before := by
  induction before using List.reverseRecOn generalizing after with
  | nil => simp [bytesBefore]
  | append_singleton before c ih =>
    rw [lastLine_concat, List.append_assoc, List.singleton_append, List.count_append]
    by_cases hc : c = '\n'
    · rw [if_pos hc, hc, List.count_singleton_self, bytesBefore_line, byteCount_append]
      rfl
    · rw [if_neg hc, List.count_singleton, if_neg (by simp [hc]), Nat.add_zero, byteCount_append,
        byteCount_append, ← ih (c :: after), Nat.add_assoc]

/-- The offset of the place of a byte is the number of bytes before it. -/
theorem byteOffset_eq (hk : k < c.utf8Size) :
    byteOffset (String.ofList (before ++ c :: after)) (placeOfByte before k) =
      byteCount before + k := by
  have hlines := bytesBefore_add_lastLine before (c :: after)
  have hsize : (String.ofList (before ++ c :: after)).utf8ByteSize =
      byteCount before + (c.utf8Size + byteCount after) := by
    rw [utf8ByteSize_ofList, byteCount_append, byteCount_cons]
  rw [byteOffset, hsize, String.toList_ofList, placeOfByte]
  dsimp only
  rw [Nat.add_sub_cancel, Nat.add_sub_cancel, ← Nat.add_assoc, hlines]
  omega

/-- **Where a report points.** The offset for the place of a byte is the number of bytes before it,
for every byte of every text, and the report is drawn at the character of that number. This is the
character of the byte just if the byte is its first one and every character before has one byte;
in any other case it is a later one. -/
theorem byteOffset_placeOfByte (before after : List Char) {c : Char} {k : Nat}
    (hk : k < c.utf8Size) :
    let text := String.ofList (before ++ c :: after)
    let place := placeOfByte before k
    byteOffset text place = byteCount before + k ∧
      before.length ≤ byteOffset text place ∧
      (byteOffset text place = before.length ↔ k = 0 ∧ ∀ x ∈ before, x.utf8Size = 1) ∧
      (∀ f : Json.Fault, c ≠ '\n' → f.index = byteCount before + k + 1 → f.place text = place) ∧
      ∀ reason fileName, ofError text fileName (.malformed reason place) =
        .located faultTitle
          ((location? text (byteCount before + k)).map fun p =>
            fileName ++ s!":{p.line}:{p.column}")
          (LoadError.malformed reason place).message := by
  intro text place
  have hoffset : byteOffset text place = byteCount before + k := byteOffset_eq hk
  have hle : before.length ≤ byteCount before := length_le_byteCount before
  refine ⟨hoffset, ?_, ?_, fun f hc hf => f.place_eq_placeOfByte hk hc hf,
    fun reason fileName => ?_⟩
  · rw [hoffset]
    exact hle.trans (Nat.le_add_right _ k)
  · rw [hoffset, ← byteCount_eq_length_iff]
    omega
  · rw [ofError, hoffset]

theorem byteOffset_placeOfByte_secondLine :
    let text := "\x7b\n  \"inputs\": ]\n\x7d"
    0 < ']'.utf8Size ∧ byteOffset text ⟨2, 13⟩ = 14 ∧
      (Json.Fault.mk .noValue 15).place text = ⟨2, 13⟩ ∧
      ofError text "x.json" (.malformed .noValue ⟨2, 13⟩) =
        .located faultTitle (some "x.json:2:13")
          "invalid pipeline JSON: expected value at line 2 column 13" := by
  intro text
  have hk : 0 < ']'.utf8Size := by
    decide
  have htext : String.ofList ("\x7b\n  \"inputs\": ".toList ++ ']' :: "\n\x7d".toList) = text := by
    decide +kernel
  have hplace : placeOfByte "\x7b\n  \"inputs\": ".toList 0 = ⟨2, 13⟩ := by
    decide +kernel
  have hpoints := byteOffset_placeOfByte "\x7b\n  \"inputs\": ".toList "\n\x7d".toList hk
  rw [htext, hplace] at hpoints
  obtain ⟨hoffset, -, -, hfault, hreport⟩ := hpoints
  refine ⟨hk, hoffset, hfault ⟨.noValue, 15⟩ (by decide) (by decide +kernel), ?_⟩
  rw [hreport]
  decide +kernel

/-- The accent has two bytes: the report points at the brace behind the character that is wrong. -/
theorem not_byteOffset_accent :
    let before := "\x7b\"é\": ".toList
    let text := String.ofList (before ++ ']' :: ['}'])
    Description.ofJson text = .error ⟨.noValue, 8⟩ ∧
      (Json.Fault.mk .noValue 8).place text = placeOfByte before 0 ∧
      ¬ byteOffset text (placeOfByte before 0) = before.length ∧
      location? text (byteOffset text (placeOfByte before 0)) = some ⟨1, 8⟩ ∧
      location? text before.length = some ⟨1, 7⟩ := by
  decide +kernel

end Report

end Patchbay
