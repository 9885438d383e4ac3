import Patchbay.Proofs.Json.Codecs
import Patchbay.Proofs.Pairing

/-!
# Records are read as they were written

A record is read into a blank one, field by field. `Fills` says that the fields as they are written
fill a record up to another one. If they fill the blank record up to the one that is written, and
no two of them have the same key, then the record reads back (`roundTrips_codec`).
-/

namespace Patchbay

namespace Json

open Reader

variable {β γ : Type} {v b b' : β} {c : Codec γ} {fuel depth : Nat} {isFirst : Bool}
  {rest : List Char} {parts : List Doc} {key : String}

/-- A value that is there is not taken for `null`. -/
theorem Codec.RoundTrips.readAs_some {y : γ} (h : c.RoundTrips y) :
    (c.write y).ReadAs (Field.readNullable c) (some y) := by
  intro depth blanks rest hblanks hrest
  obtain ⟨x, more, hwrite, hblank, -, hnull⟩ := h.first depth
  have hself := h.takes depth hrest
  rw [hwrite] at hself ⊢
  refine (takes_look .endInValue hblanks hblank).bind ?_
  rw [if_neg hnull]
  exact hself.map

namespace Field

/-- Reading the fields as they are written for a record takes `b` to `b'`. What is not written need
not be there. -/
inductive Fills (v : β) : List (Field β) → β → β → Prop
  | nil (b : β) : Fills v [] b b
  | written {x : Field β} {fields : List (Field β)} {b mid b' : β} {doc : Doc} :
    x.write v = some doc → doc.ReadAs (x.read b) mid → Fills v fields mid b' →
    Fills v (x :: fields) b b'
  | absent {x : Field β} {fields : List (Field β)} {b b' : β} :
    x.write v = none → x.isRequired = false → Fills v fields b b' → Fills v (x :: fields) b b'

section Kinds

variable {fields : List (Field β)} {put : β → γ → β} {get : β → γ}

theorem Fills.required (h : c.RoundTrips (get v)) (hfields : Fills v fields (put b (get v)) b') :
    Fills v (Field.required key c get put :: fields) b b' :=
  .written rfl h.readAs.map hfields

theorem Fills.defaulted (h : c.RoundTrips (get v)) (hfields : Fills v fields (put b (get v)) b') :
    Fills v (Field.defaulted key c get put :: fields) b b' :=
  .written rfl h.readAs.map hfields

/-- An absent value must be what the record has already. -/
theorem Fills.optional {get : β → Option γ} {put : β → Option γ → β}
    (h : ∀ y, get v = some y → c.RoundTrips y) (hnone : put b none = b)
    (hfields : Fills v fields (put b (get v)) b') :
    Fills v (Field.optional key c get put :: fields) b b' := by
  cases hget : get v with
  | none =>
    rw [hget, hnone] at hfields
    exact .absent (by simp [Field.optional, hget]) rfl hfields
  | some y =>
    rw [hget] at hfields
    have hdoc : (Field.optional key c get put).write v = some (c.write y) := by
      simp [Field.optional, hget]
    exact .written hdoc (h y hget).readAs_some.map hfields

end Kinds

end Field

namespace Format

variable {f : Format β} {fields before : List (Field β)} {seen : List String}

/-! ## Keys -/

theorem takes_nextKey_nil (isFirst : Bool) (rest : List Char) :
    Takes (nextKey isFirst) (Doc.following '\x7d' depth isFirst [] ++ rest) none
      ('\x7d' :: rest) := by
  cases isFirst with
  | true => exact (takes_look_self .endInObject rfl).bind (.pure _ _)
  | false =>
    simp only [Doc.following, List.append_assoc]
    exact (takes_look .endInObject (fun _ => Doc.isBlank_of_mem_newline) rfl).bind (.pure _ _)

theorem takes_nextKey_cons (isFirst : Bool) (key : String) (doc : Doc) (rest : List Char) :
    Takes (nextKey isFirst)
      (Doc.following '\x7d' depth isFirst (Doc.field key doc :: parts) ++ rest) (some key)
      (':' :: ' ' :: (doc (depth + 1) ++ (Doc.following '\x7d' depth false parts ++ rest))) := by
  have hfield : Doc.field key doc (depth + 1) =
      writeText key ++ ':' :: ' ' :: doc (depth + 1) := rfl
  have hquoted := takes_quoted_writeText key
    (':' :: ' ' :: (doc (depth + 1) ++ (Doc.following '\x7d' depth false parts ++ rest)))
  cases isFirst with
  | true =>
    simp only [Doc.following, hfield, List.append_assoc, List.cons_append]
    exact (takes_look _ (fun _ => Doc.isBlank_of_mem_newline) rfl).bind hquoted.map
  | false =>
    simp only [Doc.following, hfield, List.append_assoc, List.cons_append]
    exact (takes_look_self _ rfl).bind ((takes_advance _ _).bind
      ((takes_look _ (fun _ => Doc.isBlank_of_mem_newline) rfl).bind hquoted.map))

/-! ## Fields -/

/-- The parts that are written for the fields of a record. -/
def written (v : β) (fields : List (Field β)) : List Doc :=
  fields.filterMap fun x => (x.write v).map (Doc.field x.key)

theorem find?_key (hkeys : (f.fields.map Field.key).Nodup) {x : Field β} (hx : x ∈ f.fields) :
    f.fields.find? (fun y => decide (y.key = x.key)) = some x :=
  (find?_eq_some_iff_of_nodup hkeys).2 ⟨hx, rfl⟩

/-- How far a record has come: the keys that have come belong to the fields `before`, and those of
them that are required have come. -/
structure Passed (before : List (Field β)) (seen : List String) : Prop where
  mem_keys : ∀ key ∈ seen, key ∈ before.map Field.key
  mem_seen : ∀ x ∈ before, x.isRequired = true → x.key ∈ seen

namespace Passed

variable {x : Field β}

theorem nil : Passed ([] : List (Field β)) [] := ⟨List.forall_mem_nil _, List.forall_mem_nil _⟩

theorem read (h : Passed before seen) (x : Field β) : Passed (before ++ [x]) (x.key :: seen) where
  mem_keys key hkey := by
    rw [List.map_append]
    rcases List.mem_cons.1 hkey with rfl | hkey
    · exact List.mem_append_right _ (List.mem_singleton_self _)
    · exact List.mem_append_left _ (h.mem_keys key hkey)
  mem_seen y hy hrequired := by
    rcases List.mem_append.1 hy with hy | hy
    · exact List.mem_cons_of_mem _ (h.mem_seen y hy hrequired)
    · rw [List.mem_singleton.1 hy]
      exact List.mem_cons_self ..

theorem skip (h : Passed before seen) (hx : x.isRequired = false) :
    Passed (before ++ [x]) seen where
  mem_keys key hkey := by
    rw [List.map_append]
    exact List.mem_append_left _ (h.mem_keys key hkey)
  mem_seen y hy hrequired := by
    rcases List.mem_append.1 hy with hy | hy
    · exact h.mem_seen y hy hrequired
    · rw [List.mem_singleton.1 hy, hx] at hrequired
      cases hrequired

/-- The key of the next field has not come. -/
theorem notMem (h : Passed before seen) (hkeys : ((before ++ x :: fields).map Field.key).Nodup) :
    x.key ∉ seen := by
  intro hmem
  rw [List.map_append, List.map_cons] at hkeys
  exact (List.nodup_append'.1 hkeys).2.2 (h.mem_keys _ hmem) (List.mem_cons_self ..)

theorem find?_missing (h : Passed before seen) :
    before.find? (fun x => decide (x.isRequired = true ∧ x.key ∉ seen)) = none := by
  rw [List.find?_eq_none]
  intro x hx
  have hcome := h.mem_seen x hx
  simpa using hcome

end Passed

/-- The fields that are left are read as they were written, after those before them. -/
theorem takes_members (hkeys : (f.fields.map Field.key).Nodup) (hfill : Field.Fills v fields b b')
    (hfields : f.fields = before ++ fields) (hpassed : Passed before seen)
    (hfuel : (written v fields).length < fuel) (rest : List Char) :
    Takes (members f fuel isFirst seen b)
      (Doc.following '\x7d' depth isFirst (written v fields) ++ rest) b' rest := by
  obtain ⟨fuel, rfl⟩ : ∃ k, fuel = k + 1 := ⟨fuel - 1, by omega⟩
  induction hfill generalizing fuel isFirst seen before with
  | nil b =>
    have hnone := hpassed.find?_missing
    rw [← List.append_nil before, ← hfields] at hnone
    refine (takes_nextKey_nil isFirst rest).bind ((takes_advance _ _).bind ?_)
    rw [hnone]
    exact .pure b rest
  | @absent x fields b b' hwrite hoptional _ ih =>
    have hsame : written v (x :: fields) = written v fields := by simp [written, hwrite]
    rw [hsame] at hfuel ⊢
    exact ih (hfields.trans (List.append_cons ..)) (hpassed.skip hoptional) _ hfuel
  | @written x fields b mid b' doc hwrite hread _ ih =>
    have hcons : written v (x :: fields) = Doc.field x.key doc :: written v fields := by
      simp [written, hwrite]
    have hx : x ∈ f.fields := hfields ▸ List.mem_append_right _ (List.mem_cons_self ..)
    have hnew : x.key ∉ seen := hpassed.notMem (hfields ▸ hkeys)
    rw [hcons] at hfuel ⊢
    obtain ⟨fuel, rfl⟩ : ∃ k, fuel = k + 1 := ⟨fuel - 1, by simp at hfuel; omega⟩
    refine (takes_nextKey_cons isFirst x.key doc rest).bind ?_
    simp only [find?_key hkeys hx, hnew, if_false]
    have hvalue := hread (depth + 1) [' ']
      (Doc.following '\x7d' depth false (written v fields) ++ rest) (by simp [isBlank])
      (Doc.ends_following _ _ _)
    refine (takes_colon _).bind (hvalue.bind ?_)
    exact ih (hfields.trans (List.append_cons ..)) (hpassed.read x) _ (Nat.lt_of_succ_lt_succ hfuel)

/-- A record reads back if its fields fill a blank one up to it. -/
theorem roundTrips_codec (hkeys : (f.fields.map Field.key).Nodup)
    (hfill : Field.Fills v f.fields f.blank v) : f.codec.RoundTrips v := by
  have hwrite : ∀ depth, f.codec.write v depth =
      '\x7b' :: Doc.following '\x7d' depth true (written v f.fields) := by
    intro depth
    have hobject : f.codec.write v = Doc.bracketed '\x7b' '\x7d' (written v f.fields) := by
      simp only [codec, write, Doc.object, List.map_filterMap]
      refine congrArg (Doc.bracketed '\x7b' '\x7d') (List.filterMap_congr fun x _ => ?_)
      cases x.write v <;> rfl
    rw [hobject]
    exact Doc.bracketed_eq _ _ _
  constructor
  · exact fun depth => ⟨'\x7b', _, hwrite depth, rfl, by decide, by decide⟩
  · intro depth blanks rest hblanks _
    rw [hwrite]
    refine (takes_look .endInValue hblanks rfl).bind ((takes_advance _ _).bind
      ((takes_rounds _).bind (takes_members hkeys hfill (List.nil_append _).symm .nil ?_ rest)))
    have hlength := Doc.length_le_following '\x7d' depth true (written v f.fields)
    change _ < (_ ++ rest).length + 1
    rw [List.length_append]
    omega

end Format

end Json

end Patchbay
