import Patchbay.Scalar

/-!
# Points

Points of the canvas, which are also used as displacements. The x axis runs to the right and the y
axis down.
-/

namespace Patchbay

/-- A point, or the displacement from one point to another. -/
structure Point (α : Type) where
  x : α
  y : α
deriving DecidableEq

namespace Point

variable {α : Type} [Scalar α]

instance [Inhabited α] : Inhabited (Point α) := ⟨default, default⟩

/-- The top left corner of the canvas. -/
def origin : Point α := ⟨0, 0⟩

instance : Add (Point α) := ⟨fun p q => ⟨p.x + q.x, p.y + q.y⟩⟩
instance : Sub (Point α) := ⟨fun p q => ⟨p.x - q.x, p.y - q.y⟩⟩
instance : Neg (Point α) := ⟨fun p => ⟨-p.x, -p.y⟩⟩
instance : HMul (Point α) α (Point α) := ⟨fun p t => ⟨p.x * t, p.y * t⟩⟩

def Same (p q : Point α) : Prop := Scalar.Same p.x q.x ∧ Scalar.Same p.y q.y

instance (p q : Point α) : Decidable (Same p q) := inferInstanceAs (Decidable (_ ∧ _))

def Finite (p : Point α) : Prop := Scalar.Finite p.x ∧ Scalar.Finite p.y

instance (p : Point α) : Decidable p.Finite := inferInstanceAs (Decidable (_ ∧ _))

def dot (p q : Point α) : α := p.x * q.x + p.y * q.y

def lengthSquared (p : Point α) : α := p.dot p

def length (p : Point α) : α := Scalar.sqrt p.lengthSquared

def distance (p q : Point α) : α := (q - p).length

/-- The point that divides the line from `p` to `q` at the share `t`. -/
def lerp (p q : Point α) (t : α) : Point α := p * (1 - t) + q * t

/-! ## Coordinates of the operations -/

@[simp] theorem add_x (p q : Point α) : (p + q).x = p.x + q.x := rfl
@[simp] theorem add_y (p q : Point α) : (p + q).y = p.y + q.y := rfl
@[simp] theorem sub_x (p q : Point α) : (p - q).x = p.x - q.x := rfl
@[simp] theorem sub_y (p q : Point α) : (p - q).y = p.y - q.y := rfl
@[simp] theorem neg_x (p : Point α) : (-p).x = -p.x := rfl
@[simp] theorem neg_y (p : Point α) : (-p).y = -p.y := rfl
@[simp] theorem mul_x (p : Point α) (t : α) : (p * t).x = p.x * t := rfl
@[simp] theorem mul_y (p : Point α) (t : α) : (p * t).y = p.y * t := rfl
@[simp] theorem origin_x : (origin : Point α).x = 0 := rfl
@[simp] theorem origin_y : (origin : Point α).y = 0 := rfl

end Point

end Patchbay
