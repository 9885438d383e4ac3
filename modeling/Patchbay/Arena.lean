/-!
# Arenas

A store whose entries are named by the slot they were put in. A removed entry leaves its slot
empty, and new entries always take a new slot, so a slot never changes its meaning.
-/

namespace Patchbay

/-- Slots that hold a value or have been emptied. -/
structure Arena (β : Type) where
  slots : List (Option β)

namespace Arena

variable {β : Type}

def empty : Arena β := ⟨[]⟩

/-- The number of slots, empty ones included. It is the slot that the next value takes. -/
def size (a : Arena β) : Nat := a.slots.length

def get? (a : Arena β) (i : Nat) : Option β := a.slots[i]?.join

/-- Put a value into a new slot. -/
def push (a : Arena β) (b : β) : Arena β := ⟨a.slots ++ [some b]⟩

/-- Empty a slot. -/
def remove (a : Arena β) (i : Nat) : Arena β := ⟨a.slots.set i none⟩

def modify (a : Arena β) (i : Nat) (f : β → β) : Arena β := ⟨a.slots.modify i (Option.map f)⟩

def map (f : β → β) (a : Arena β) : Arena β := ⟨a.slots.map (Option.map f)⟩

/-! ## What the slots hold -/

@[simp] theorem get?_empty (i : Nat) : (empty : Arena β).get? i = none := rfl

theorem get?_of_size_le {a : Arena β} {i : Nat} (h : a.size ≤ i) : a.get? i = none := by
  simp [get?, List.getElem?_eq_none (by simpa [size] using h)]

theorem lt_size_of_get? {a : Arena β} {i : Nat} {b : β} (h : a.get? i = some b) : i < a.size := by
  refine Nat.lt_of_not_le fun hle => ?_
  rw [get?_of_size_le hle] at h
  cases h

theorem get?_push (a : Arena β) (b : β) (i : Nat) :
    (a.push b).get? i = if i = a.size then some b else a.get? i := by
  by_cases h : i = a.size
  · subst h
    simp [get?, push, size]
  · rw [if_neg h]
    rcases Nat.lt_or_gt_of_ne h with hlt | hgt
    · simp [get?, push, List.getElem?_append_left (by simpa [size] using hlt)]
    · rw [get?_of_size_le (Nat.le_of_lt hgt)]
      refine get?_of_size_le ?_
      simpa [size, push] using Nat.succ_le_of_lt hgt

theorem get?_remove (a : Arena β) (i j : Nat) :
    (a.remove i).get? j = if i = j then none else a.get? j := by
  by_cases h : i = j
  · subst h
    by_cases hi : i < a.slots.length <;> simp [get?, remove, hi]
  · simp [get?, remove, h]

theorem get?_modify (a : Arena β) (i j : Nat) (f : β → β) :
    (a.modify i f).get? j = if i = j then (a.get? j).map f else a.get? j := by
  by_cases h : i = j
  · subst h
    cases hi : a.slots[i]? <;> simp [get?, modify, hi]
  · simp [get?, modify, h]

theorem get?_map (a : Arena β) (f : β → β) (j : Nat) :
    (a.map f).get? j = (a.get? j).map f := by
  cases hj : a.slots[j]? <;> simp [get?, map, hj]

@[simp] theorem size_push (a : Arena β) (b : β) : (a.push b).size = a.size + 1 := by
  simp [size, push]

@[simp] theorem size_remove (a : Arena β) (i : Nat) : (a.remove i).size = a.size := by
  simp [size, remove]

@[simp] theorem size_modify (a : Arena β) (i : Nat) (f : β → β) :
    (a.modify i f).size = a.size := by
  simp [size, modify]

@[simp] theorem size_map (a : Arena β) (f : β → β) : (a.map f).size = a.size := by
  simp [size, map]

end Arena

end Patchbay
