import Patchbay.Proofs.Json.Reals
import Patchbay.Proofs.Json.Texts

/-!
# Values are read as they were written

`RoundTrips` says of a codec and a value that the value reads back, wherever it was written. It
holds of strings, of numbers in range, and of lists whose elements round trip.

Lists and objects are laid out alike: `following` is what is left of one, from any part on.
-/

namespace Patchbay

namespace Json

open Reader

variable {β γ : Type} {b b' : β} {c : Codec β} {fuel depth : Nat} {isFirst : Bool}
  {blanks rest more : List Char} {parts : List Doc} {key : String}

/-! ## Layout -/

namespace Doc

/-- What is left of the parts between brackets, with the closing bracket. -/
def following (closing : Char) (depth : Nat) : Bool → List Doc → List Char
  | true, [] => [closing]
  | false, [] => newline depth ++ [closing]
  | true, p :: ps => newline (depth + 1) ++ (p (depth + 1) ++ following closing depth false ps)
  | false, p :: ps =>
    ',' :: (newline (depth + 1) ++ (p (depth + 1) ++ following closing depth false ps))

theorem isBlank_of_mem_newline {x : Char} (hx : x ∈ newline depth) : isBlank x = true := by
  rcases List.mem_cons.1 hx with rfl | hx
  · rfl
  · rw [List.eq_of_mem_replicate hx]
    rfl

theorem intercalate_append (closing : Char) (p : Doc) (ps : List Doc) :
    [','].intercalate ((p :: ps).map fun p => newline (depth + 1) ++ p (depth + 1)) ++
      (newline depth ++ [closing]) = following closing depth true (p :: ps) := by
  induction ps generalizing p with
  | nil => simp [List.intercalate, following]
  | cons q ps ih =>
    have htail := ih q
    simp only [List.intercalate, List.map_cons, List.intersperse_cons_cons, List.flatten_cons,
      following, List.append_assoc] at htail ⊢
    rw [htail]
    rfl

theorem bracketed_eq (opening closing : Char) (parts : List Doc) :
    bracketed opening closing parts depth = opening :: following closing depth true parts := by
  cases parts with
  | nil => rfl
  | cons p ps =>
    rw [← intercalate_append]
    simp [bracketed]

theorem length_le_following (closing : Char) (depth : Nat) (isFirst : Bool) (parts : List Doc) :
    parts.length ≤ (following closing depth isFirst parts).length := by
  induction parts generalizing isFirst with
  | nil => exact Nat.zero_le _
  | cons p ps ih =>
    have hps := ih false
    cases isFirst <;> simp only [following, newline, List.length_cons, List.length_append] <;> omega

theorem ends_following (closing : Char) (parts : List Doc) (rest : List Char) :
    Ends (following closing depth false parts ++ rest) := by
  cases parts with
  | nil => exact ends_newline _
  | cons p ps => exact ends_comma _

end Doc

/-! ## Codecs -/

/-- What is written is read as the value, at any depth, behind any blanks, and before whatever may
come after a value. -/
def Doc.ReadAs (doc : Doc) (r : Reader β) (b : β) : Prop :=
  ∀ depth blanks rest, (∀ y ∈ blanks, isBlank y = true) → Ends rest →
    Takes r (blanks ++ (doc depth ++ rest)) b rest

theorem Doc.ReadAs.map {doc : Doc} {r : Reader β} {g : β → γ} (h : doc.ReadAs r b) :
    doc.ReadAs (do let b ← r; return g b) (g b) :=
  fun depth blanks rest hblanks hrest => (h depth blanks rest hblanks hrest).map

/-- What the codec writes for the value is read as the value. It begins with no blank, and neither
as the end of a list nor as `null` does. -/
structure Codec.RoundTrips (c : Codec β) (b : β) : Prop where
  first : ∀ depth, ∃ x more, c.write b depth = x :: more ∧ isBlank x = false ∧ x ≠ ']' ∧ x ≠ 'n'
  readAs : (c.write b).ReadAs c.read b

namespace Codec

/-- Without blanks before it. -/
theorem RoundTrips.takes (h : c.RoundTrips b) (depth : Nat) (hrest : Ends rest) :
    Takes c.read (c.write b depth ++ rest) b rest :=
  h.readAs depth [] rest (List.forall_mem_nil _) hrest

theorem roundTrips_text (s : String) : text.RoundTrips s where
  first _ := ⟨'"', _, rfl, rfl, by decide, by decide⟩
  readAs _ _ rest hblanks _ :=
    (takes_look .endInValue hblanks rfl).bind (takes_quoted_writeText s rest)

/-- A number begins as a number. -/
theorem first_of_wellFormed {l : Literal} (h : l.WellFormed) :
    ∃ x more, l.text = x :: more ∧ isBlank x = false ∧ x ≠ ']' ∧ x ≠ 'n' := by
  obtain ⟨x, more, htext, hx⟩ := h.exists_first
  refine ⟨x, more, htext, isBlank_eq_false hx, ?_⟩
  constructor
  all_goals
    rintro rfl
    rcases hx with hx | hx <;> exact absurd hx (by decide)

theorem first_of_decimalDigits (n : Nat) :
    ∃ x more, decimalDigits n = x :: more ∧ isBlank x = false ∧ x ≠ ']' ∧ x ≠ 'n' := by
  rw [← Literal.text_ofNat]
  exact first_of_wellFormed (Literal.wellFormed_ofNat n)

theorem roundTrips_count {n : Nat} (hn : n < UInt64.size) : count.RoundTrips n where
  first _ := first_of_decimalDigits n
  readAs _ _ _ hblanks hrest := takes_readNatural hn (Nat.le_refl _) hblanks hrest

theorem roundTrips_code (n : UInt32) : code.RoundTrips n where
  first _ := first_of_decimalDigits n.toNat
  readAs _ _ _ hblanks hrest := by
    have hlimit : UInt32.size ≤ UInt64.size := by decide
    have hnatural : Takes (readNatural UInt32.size "u32") _ _ _ :=
      takes_readNatural n.toNat_lt hlimit hblanks hrest
    have h := hnatural.map (g := UInt32.ofNat)
    rw [UInt32.ofNat_toNat] at h
    exact h

theorem roundTrips_real {x : Double} (hx : ¬ (x.isNaN ∨ x.isInfinite)) (hback : ReadsBack x) :
    real.RoundTrips x where
  first _ := by
    obtain ⟨l, hl, htext⟩ := exists_literal_writeReal hx
    have h := first_of_wellFormed hl
    rwa [← htext] at h
  readAs _ _ _ hblanks hrest := takes_writeReal hx hback hblanks hrest

/-! ## Lists -/

theorem takes_another_nil (isFirst : Bool) (rest : List Char) :
    Takes (another isFirst) (Doc.following ']' depth isFirst [] ++ rest) false (']' :: rest) := by
  cases isFirst with
  | true => exact (takes_look_self .endInList rfl).bind (.pure _ _)
  | false =>
    simp only [Doc.following, List.append_assoc]
    exact (takes_look .endInList (fun _ => Doc.isBlank_of_mem_newline) rfl).bind (.pure _ _)

theorem takes_another_cons {p : Doc} {x : Char} (isFirst : Bool) (rest : List Char)
    (hp : p (depth + 1) = x :: more) (hblank : isBlank x = false) (hclose : x ≠ ']') :
    Takes (another isFirst) (Doc.following ']' depth isFirst (p :: parts) ++ rest) true
      (p (depth + 1) ++ (Doc.following ']' depth false parts ++ rest)) := by
  have hlook : ∀ atEnd, Takes (look atEnd)
      (Doc.newline (depth + 1) ++ (p (depth + 1) ++ (Doc.following ']' depth false parts ++ rest)))
      x (p (depth + 1) ++ (Doc.following ']' depth false parts ++ rest)) := by
    intro atEnd
    rw [hp]
    exact takes_look atEnd (fun _ => Doc.isBlank_of_mem_newline) hblank
  cases isFirst with
  | true =>
    simp only [Doc.following, List.append_assoc]
    refine (hlook _).bind ?_
    rw [if_neg hclose]
    exact .pure _ _
  | false =>
    simp only [Doc.following, List.cons_append, List.append_assoc]
    refine (takes_look_self _ rfl).bind ((takes_advance _ _).bind ((hlook _).bind ?_))
    rw [if_neg hclose]
    exact .pure _ _

theorem takes_elements {bs : List β} (hbs : ∀ b ∈ bs, c.RoundTrips b) (rest : List Char)
    (hfuel : bs.length < fuel) :
    Takes (elements c.read fuel isFirst)
      (Doc.following ']' depth isFirst (bs.map c.write) ++ rest) bs rest := by
  induction bs generalizing fuel isFirst with
  | nil =>
    obtain ⟨fuel, rfl⟩ : ∃ k, fuel = k + 1 := ⟨fuel - 1, by simp at hfuel; omega⟩
    exact (takes_another_nil isFirst rest).bind ((takes_advance _ _).bind (.pure _ _))
  | cons b bs ih =>
    obtain ⟨fuel, rfl⟩ : ∃ k, fuel = k + 1 := ⟨fuel - 1, by simp at hfuel; omega⟩
    have hb := hbs b (List.mem_cons_self ..)
    obtain ⟨x, more, hwrite, hblank, hclose, -⟩ := hb.first (depth + 1)
    have hrest : Takes (elements c.read fuel false)
        (Doc.following ']' depth false (bs.map c.write) ++ rest) bs rest :=
      ih (fun b' hb' => hbs b' (List.mem_cons_of_mem b hb')) (Nat.lt_of_succ_lt_succ hfuel)
    refine (takes_another_cons isFirst rest hwrite hblank hclose).bind ?_
    exact (hb.takes (depth + 1) (Doc.ends_following _ _ _)).bind hrest.map

theorem roundTrips_listOf {bs : List β} (hbs : ∀ b ∈ bs, c.RoundTrips b) :
    (listOf c).RoundTrips bs where
  first depth := ⟨'[', _, Doc.bracketed_eq _ _ _, rfl, by decide, by decide⟩
  readAs depth blanks rest hblanks _ := by
    have hwrite : (listOf c).write bs depth =
        '[' :: Doc.following ']' depth true (bs.map c.write) := Doc.bracketed_eq _ _ _
    rw [hwrite]
    refine (takes_look .endInValue hblanks rfl).bind ((takes_advance _ _).bind
      ((takes_rounds _).bind (takes_elements hbs rest ?_)))
    have hlength := Doc.length_le_following ']' depth true (bs.map c.write)
    rw [List.length_map] at hlength
    change bs.length < (_ ++ rest).length + 1
    rw [List.length_append]
    omega

end Codec

end Json

end Patchbay
