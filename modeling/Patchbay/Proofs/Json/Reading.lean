import Patchbay.Json.Reader

/-!
# What readers take

`Takes r text b rest` says that the reader `r` reads `b` off the front of a text and leaves the
rest. Readers in sequence take one part of the text each, so what a reader takes is shown part by
part, along its definition. Where the text stands in the whole is of no account: only faults tell
it.
-/

namespace Patchbay

namespace Json

namespace Reader

variable {β γ : Type} {r : Reader β} {f : β → Reader γ} {b : β} {c : γ}
  {text mid rest blanks : List Char}

/-- The reader reads the value off a text and leaves the rest. -/
def Takes (r : Reader β) (text : List Char) (b : β) (rest : List Char) : Prop :=
  ∀ i, ∃ j, r.run ⟨text, i⟩ = .ok (b, ⟨rest, j⟩)

/-! ## In sequence -/

theorem Takes.pure (b : β) (text : List Char) : Takes (Pure.pure b : Reader β) text b text :=
  fun i => ⟨i, rfl⟩

theorem Takes.bind (h : Takes r text b mid) (hf : Takes (f b) mid c rest) :
    Takes (r >>= f) text c rest := by
  intro i
  obtain ⟨j, hj⟩ := h i
  obtain ⟨k, hk⟩ := hf j
  exact ⟨k, by rw [StateT.run_bind, hj]; exact hk⟩

/-- A value that is read is changed. -/
theorem Takes.map {g : β → γ} (h : Takes r text b rest) :
    Takes (do let b ← r; return g b) text (g b) rest :=
  h.bind (.pure (g b) rest)

/-- A reader may look at the text. -/
theorem Takes.get {f : Text.Cursor → Reader β} (h : ∀ i, Takes (f ⟨text, i⟩) text b rest) :
    Takes (MonadState.get >>= f) text b rest :=
  fun i => h i i

theorem takes_rounds (text : List Char) : Takes rounds text (text.length + 1) text :=
  .get fun _ => .pure _ _

def Fails (r : Reader β) (text : List Char) : Prop :=
  ∀ i, ∃ fault, r.run ⟨text, i⟩ = .error fault

theorem Fails.bind (h : Fails r text) (f : β → Reader γ) : Fails (r >>= f) text := by
  intro i
  obtain ⟨fault, hfault⟩ := h i
  exact ⟨fault, by rw [StateT.run_bind, hfault]; rfl⟩

theorem Takes.fails (h : Takes r text b mid) (hf : Fails (f b) mid) : Fails (r >>= f) text := by
  intro i
  obtain ⟨j, hj⟩ := h i
  obtain ⟨fault, hfault⟩ := hf j
  exact ⟨fault, by rw [StateT.run_bind, hj]; exact hfault⟩

/-! ## Characters -/

theorem takes_advance (x : Char) (rest : List Char) : Takes advance (x :: rest) () rest :=
  fun i => ⟨i + x.utf8Size, rfl⟩

theorem takes_takeWhile (p : Char → Bool) (text : List Char) :
    Takes (takeWhile p) text (text.takeWhile p) (text.dropWhile p) :=
  fun i => ⟨i + Text.byteCount (text.takeWhile p), rfl⟩

/-- Characters of a class are taken up to the first that is not of the class. -/
theorem takes_takeWhile_append {p : Char → Bool} {cs : List Char} (hcs : ∀ x ∈ cs, p x = true)
    (hrest : ∀ x ∈ rest.head?, p x = false) : Takes (takeWhile p) (cs ++ rest) cs rest := by
  have hnone : rest.takeWhile p = [] ∧ rest.dropWhile p = rest := by
    cases rest with
    | nil => exact ⟨rfl, rfl⟩
    | cons x rest => simp [hrest x rfl]
  have h := takes_takeWhile p (cs ++ rest)
  rwa [List.takeWhile_append_of_pos hcs, List.dropWhile_append_of_pos hcs, hnone.1, hnone.2,
    List.append_nil] at h

/-! ## Blanks -/

/-- Blanks before a character are passed. -/
theorem takes_look (atEnd : Reason) {x : Char} (hblanks : ∀ y ∈ blanks, isBlank y = true)
    (hx : isBlank x = false) : Takes (look atEnd) (blanks ++ x :: rest) x (x :: rest) :=
  (takes_takeWhile_append hblanks (by simpa using hx)).bind (.get fun _ => .pure _ _)

theorem takes_look_self (atEnd : Reason) {x : Char} (hx : isBlank x = false) :
    Takes (look atEnd) (x :: rest) x (x :: rest) :=
  takes_look atEnd (List.forall_mem_nil _) hx

theorem takes_colon (rest : List Char) : Takes colon (':' :: rest) () rest :=
  (takes_look_self .endInObject rfl).bind (takes_advance ':' rest)

/-! ## After a value -/

/-- What comes after a value that has been written: a comma, a new line, or nothing. -/
def Ends (rest : List Char) : Prop := ∀ x ∈ rest.head?, x = ',' ∨ x = '\n'

theorem ends_nil : Ends [] := by simp [Ends]

theorem ends_comma (rest : List Char) : Ends (',' :: rest) := by simp [Ends]

theorem ends_newline (rest : List Char) : Ends ('\n' :: rest) := by simp [Ends]

/-! ## Whole texts -/

/-- A reader that takes the whole text reads it. -/
theorem Takes.readAll {text : String} (h : Takes r text.toList b []) : readAll r text = .ok b := by
  obtain ⟨j, hj⟩ := h 0
  have hrun : (do let b ← r; finish; return b : Reader β).run (.start text) = .ok (b, ⟨[], j⟩) := by
    rw [StateT.run_bind]
    change (r.run ⟨text.toList, 0⟩ >>= _) = _
    rw [hj]
    rfl
  rw [Reader.readAll, hrun]
  rfl

theorem Fails.readAll {text : String} (h : Fails r text.toList) : readAll r text ≠ .ok b := by
  obtain ⟨fault, hfault⟩ := h.bind (fun b => do finish; return b) 0
  have hrun : (do let b ← r; finish; return b : Reader β).run (.start text) = .error fault := hfault
  rw [Reader.readAll, hrun]
  exact nofun

end Reader

end Json

end Patchbay
