import Patchbay.Proofs.Description.Building

/-!
# What references denote

A description says which input, step or socket it means by a name or a number. Here this is said
apart from any diagram: a name is good if exactly one thing has it, and a number means the first
step that has it (`Key.Source`, `Key.Plug`). Once the shapes have been laid down, looking up in the
diagram finds just what is meant (`Key.Stands.sourceMagnet_eq_ok_iff`, `Key.Stands.plug_iff`).
-/

namespace Patchbay

namespace Description

open Diagram

variable {α : Type} {d : Diagram α} {id : ShapeId} {s t : Terminal} {number : Nat} {name : String}
  {type : Option Datatype} {side : Side}

/-! ## Sockets -/

def Step.sockets (q : Step α) : Side → List Socket
  | .input => q.inputs
  | .output => q.outputs

/-- Only this socket has the name, and in the order of their indices it comes at this place. -/
structure Mounts (sockets : List Socket) (name : String) (x : Socket) (i : Nat) : Prop where
  only : sockets.filter (fun y : Socket => decide (y.name = name)) = [x]
  place : (sortOn Socket.index sockets)[i]? = some x

theorem sortOn_perm {β : Type} (key : β → Nat) (xs : List β) : (sortOn key xs).Perm xs :=
  stableSort_perm _ xs

/-- A name is that of one mounted socket just when one socket has it. -/
theorem exists_mounts_iff {sockets : List Socket} {i : Nat} :
    (∃ x, Mounts sockets name x i) ↔
      (∃ x, (sortOn Socket.index sockets)[i]? = some x ∧ x.name = name) ∧
      ∀ (j : Nat) (y : Socket), (sortOn Socket.index sockets)[j]? = some y → y.name = name →
        j = i := by
  have honly : ∀ x : Socket, sockets.filter (fun y => decide (y.name = name)) = [x] ↔ ∃ j : Nat,
      ((sortOn Socket.index sockets)[j]? = some x ∧ x.name = name) ∧
      ∀ (k : Nat) (y : Socket), (sortOn Socket.index sockets)[k]? = some y → y.name = name →
        k = j := by
    intro x
    rw [filter_eq_singleton_of_perm (sortOn_perm Socket.index sockets).symm,
      filter_eq_singleton_iff_zipIdx]
    simp only [filter_zipIdx_eq_singleton_iff (p := fun y : Socket => decide (y.name = name)),
      decide_eq_true_eq]
  constructor
  · rintro ⟨x, hx, hi⟩
    obtain ⟨j, ⟨hj, hname⟩, hall⟩ := (honly x).1 hx
    obtain rfl := hall i x hi hname
    exact ⟨⟨x, hi, hname⟩, hall⟩
  · rintro ⟨⟨x, hi, hname⟩, hall⟩
    exact ⟨x, (honly x).2 ⟨i, ⟨hi, hname⟩, hall⟩, hi⟩

/-! ## Keys -/

/-- Which shapes and cables of a diagram stand for what a description lists. -/
structure Key (α : Type) where
  inputs : List (Input α × ShapeId)
  steps : List (Step α × ShapeId)
  /-- The cables into steps, each with the step that lists it. -/
  cables : List ((Step α × CableIn) × CableId)
  /-- The outputs with their cables. -/
  outputs : List (Output α × ShapeId × CableId)

namespace Key

variable {v : Key α}

/-- The first step with the number. -/
def first? (v : Key α) (number : Nat) : Option (Step α × ShapeId) :=
  v.steps.find? fun e => decide (e.1.number = number)

/-- The shape is that of the first step with the number. -/
def Numbered (v : Key α) (number : Nat) (id : ShapeId) : Prop :=
  (v.first? number).map Prod.snd = some id

/-- The magnet of the socket with the name, on one side of the first step with the number. -/
inductive Plug (v : Key α) (number : Nat) (side : Side) (name : String) :
    Terminal → Option Datatype → Prop
  | mk {q : Step α} {id : ShapeId} {x : Socket} {i : Nat} :
      v.first? number = some (q, id) → Mounts (q.sockets side) name x i →
      Plug v number side name ⟨id, side, i⟩ x.datatype

/-- The magnet that a cable is said to leave, and the datatype of what it gives: that of the only
input with the name if the number is zero, else that of the socket of the step with the number. -/
inductive Source (v : Key α) : Nat → String → Terminal → Option Datatype → Prop
  | input {name : String} {i : Input α} {id : ShapeId} :
      v.inputs.filter (fun e => decide (e.1.name = name)) = [(i, id)] →
      Source v 0 name ⟨id, .output, 0⟩ i.datatype
  | step {number : Nat} {name : String} {s : Terminal} {type : Option Datatype} :
      number ≠ 0 → v.Plug number .output name s type → Source v number name s type

theorem mem_of_first?_eq_some {e : Step α × ShapeId} (h : v.first? number = some e) :
    e ∈ v.steps ∧ e.1.number = number := by
  have hnumber : decide (e.1.number = number) = true :=
    List.find?_some (p := fun e : Step α × ShapeId => decide (e.1.number = number)) h
  exact ⟨List.mem_of_find?_eq_some h, of_decide_eq_true hnumber⟩

theorem Plug.side_eq (h : v.Plug number side name t type) : t.side = side := by
  cases h
  rfl

theorem Plug.numbered (h : v.Plug number side name t type) : v.Numbered number t.shape := by
  obtain ⟨hq, -⟩ := h
  rw [Numbered, hq, Option.map_some]

theorem Source.side_eq (h : v.Source number name s type) : s.side = .output := by
  cases h with
  | input => rfl
  | step _ h => exact h.side_eq

theorem Source.numbered (h : v.Source number name s type) (hne : number ≠ 0) :
    v.Numbered number s.shape := by
  cases h with
  | input => exact absurd rfl hne
  | step _ h => exact h.numbered

theorem source_zero_iff : v.Source 0 name s type ↔ ∃ i id,
    v.inputs.filter (fun e => decide (e.1.name = name)) = [(i, id)] ∧ s = ⟨id, .output, 0⟩ ∧
      type = i.datatype := by
  constructor
  · rintro (⟨h⟩ | ⟨hne, -⟩)
    · exact ⟨_, _, h, rfl, rfl⟩
    · exact absurd rfl hne
  · rintro ⟨i, id, h, rfl, rfl⟩
    exact .input h

theorem source_succ_iff {n : Nat} :
    v.Source (n + 1) name s type ↔ v.Plug (n + 1) .output name s type := by
  refine ⟨fun h => ?_, .step (Nat.succ_ne_zero n)⟩
  cases h with
  | step _ h => exact h

def directory (v : Key α) : Directory :=
  ⟨v.inputs.map fun e => (e.1.name, e.2), v.steps.map fun e => (e.1.number, e.2)⟩

theorem directory_step_eq_ok_iff :
    v.directory.step number = .ok id ↔ ∃ q, v.first? number = some (q, id) := by
  have hfind : v.directory.steps.find? (fun e => decide (e.1 = number)) =
      (v.first? number).map fun e => (e.1.number, e.2) := List.find?_map
  rw [Directory.step, hfind]
  cases v.first? number with
  | none => simp
  | some e => simp [Prod.ext_iff]

theorem directory_input_eq_ok_iff : v.directory.input name = .ok id ↔
    ∃ i, v.inputs.filter (fun e => decide (e.1.name = name)) = [(i, id)] := by
  have hfilter : v.directory.inputs.filter (fun e => decide (e.1 = name)) =
      (v.inputs.filter fun e => decide (e.1.name = name)).map fun e => (e.1.name, e.2) :=
    List.filter_map
  rw [Directory.input, hfilter]
  generalize v.inputs.filter (fun e => decide (e.1.name = name)) = found
  match found with
  | [] => simp
  | [e] => simp [Prod.ext_iff]
  | e :: e' :: es => simp

end Key

/-! ## Looking up in the diagram -/

variable [Scalar α] {settings : Settings α} {v : Key α}

omit [Scalar α] in
/-- The magnets of a shape that looks like another are mounted from the same sockets. -/
theorem map_socket_of_body {a b : Shape α} (h : a.body = b.body) (side : Side) :
    (a.magnets side).map Magnet.socket = (b.magnets side).map Magnet.socket := by
  have hclear : (a.magnets side).map Magnet.clear = (b.magnets side).map Magnet.clear := by
    cases side
    · exact congrArg Shape.Body.inputs h
    · exact congrArg Shape.Body.outputs h
  rw [← Magnet.map_socket_clear (a.magnets side), hclear, Magnet.map_socket_clear]

omit [Scalar α] in
theorem map_socket_magnet? {a : Shape α} (h : d.body? id = some a.body) (side : Side) (i : Nat) :
    (d.magnet? ⟨id, side, i⟩).map Magnet.socket = ((a.magnets side).map Magnet.socket)[i]? := by
  obtain ⟨b, hb, hbody⟩ := Option.map_eq_some_iff.1 h
  rw [magnet?_of_shape? (t := ⟨id, side, i⟩) hb, ← List.getElem?_map, map_socket_of_body hbody]

theorem Input.sockets_shape (settings : Settings α) (i : Input α) :
    ((i.shape settings).magnets .output).map Magnet.socket = [⟨i.name, i.datatype⟩] := by
  unfold Input.shape
  cases i.datatype <;> exact Shape.map_socket_mount _ _ _ _

theorem Output.sockets_shape (settings : Settings α) (o : Output α) :
    ((o.shape settings).magnets .input).map Magnet.socket = [⟨o.name, o.datatype⟩] :=
  Shape.map_socket_mount _ _ _ _

theorem Step.sockets_shape (settings : Settings α) (q : Step α) (side : Side) :
    ((q.shape settings).magnets side).map Magnet.socket = mounted (q.sockets side) := by
  cases side <;> exact Shape.map_socket_mount _ _ _ _

theorem map_socket_magnet?_of_step {q : Step α} (h : d.body? id = some (q.shape settings).body)
    (side : Side) (i : Nat) : (d.magnet? ⟨id, side, i⟩).map Magnet.socket =
      (sortOn Socket.index (q.sockets side))[i]?.map fun x => ⟨x.name, x.datatype⟩ := by
  rw [map_socket_magnet? h, Step.sockets_shape, mounted, List.getElem?_map]

/-- On a step the magnet with a name is found if it is the only one. -/
theorem magnetNamed_of_step {q : Step α} (h : d.body? id = some (q.shape settings).body) :
    magnetNamed d id side name = .ok t ↔
      ∃ x i, Mounts (q.sockets side) name x i ∧ t = ⟨id, side, i⟩ := by
  have hmag := map_socket_magnet?_of_step h side
  rw [magnetNamed_eq_ok_iff]
  constructor
  · rintro ⟨⟨rfl, rfl⟩, ⟨m, hm, rfl⟩, hsole⟩
    have ht := hmag t.index
    rw [hm] at ht
    obtain ⟨y, hy, hsocket⟩ := Option.map_eq_some_iff.1 ht.symm
    have hname : y.name = m.label := congrArg Patchbay.Socket.label hsocket
    obtain ⟨x, hx⟩ := exists_mounts_iff.2 ⟨⟨y, hy, hname⟩, fun j z hz hsame => by
      have hnext := hmag j
      rw [hz] at hnext
      obtain ⟨n, hn, hsocket⟩ := Option.map_eq_some_iff.1 hnext
      exact hsole j m n hm hn ((congrArg Patchbay.Socket.label hsocket).trans hsame)⟩
    exact ⟨x, t.index, hx, rfl⟩
  · rintro ⟨x, i, hx, rfl⟩
    obtain ⟨⟨y, hy, hname⟩, hall⟩ := exists_mounts_iff.1 ⟨x, hx⟩
    have hlabel : ∀ {j n}, d.magnet? ⟨id, side, j⟩ = some n → n.label = name → j = i := by
      intro j n hn hsame
      have hnext := hmag j
      rw [hn] at hnext
      obtain ⟨z, hz, hsocket⟩ := Option.map_eq_some_iff.1 hnext.symm
      exact hall j z hz ((congrArg Patchbay.Socket.label hsocket).trans hsame)
    have hi := hmag i
    rw [hy] at hi
    obtain ⟨m, hm, hsocket⟩ := Option.map_eq_some_iff.1 hi
    have hmname := (congrArg Patchbay.Socket.label hsocket).trans hname
    refine ⟨⟨rfl, rfl⟩, ⟨m, hm, hmname⟩, fun j m' n hm' hn hsame => ?_⟩
    rw [hm] at hm'
    cases hm'
    exact hlabel hn (hsame.trans hmname)

namespace Key

/-- The shapes of the inputs and steps stand in the diagram. -/
structure Stands (v : Key α) (settings : Settings α) (d : Diagram α) : Prop where
  input : ∀ {i id}, (i, id) ∈ v.inputs → d.body? id = some (i.shape settings).body
  step : ∀ {q id}, (q, id) ∈ v.steps → d.body? id = some (q.shape settings).body

/-- Looking a socket of a step up finds the magnet that is meant. -/
theorem Stands.plug_iff (h : v.Stands settings d) :
    (∃ id, v.directory.step number = .ok id ∧ magnetNamed d id side name = .ok t) ↔
      ∃ type, v.Plug number side name t type := by
  simp only [directory_step_eq_ok_iff]
  constructor
  · rintro ⟨id, ⟨q, hq⟩, hok⟩
    have hbody := h.step (Key.mem_of_first?_eq_some hq).1
    obtain ⟨x, i, hx, rfl⟩ := (magnetNamed_of_step hbody).1 hok
    exact ⟨_, .mk hq hx⟩
  · rintro ⟨-, ⟨hq, hx⟩⟩
    have hbody := h.step (Key.mem_of_first?_eq_some hq).1
    exact ⟨_, ⟨_, hq⟩, (magnetNamed_of_step hbody).2 ⟨_, _, hx, rfl⟩⟩

/-- Looking a source up finds the magnet that is meant. -/
theorem Stands.sourceMagnet_eq_ok_iff (h : v.Stands settings d) :
    sourceMagnet d v.directory number name = .ok s ↔ ∃ type, v.Source number name s type := by
  cases number with
  | zero =>
    simp only [sourceMagnet_zero_eq_ok_iff, source_zero_iff, directory_input_eq_ok_iff]
    constructor
    · rintro ⟨id, ⟨i, hi⟩, rfl⟩
      exact ⟨_, i, id, hi, rfl, rfl⟩
    · rintro ⟨-, i, id, hi, rfl, rfl⟩
      exact ⟨id, ⟨i, hi⟩, rfl⟩
  | succ n => simp only [sourceMagnet_succ_eq_ok_iff, source_succ_iff, h.plug_iff]

theorem Stands.plug_magnet? (h : v.Stands settings d) (hp : v.Plug number side name t type) :
    ∃ m, d.magnet? t = some m ∧ m.datatype = type := by
  obtain ⟨hq, hx⟩ := hp
  have ht := map_socket_magnet?_of_step (h.step (Key.mem_of_first?_eq_some hq).1) side
  obtain ⟨m, hm, hsocket⟩ := Option.map_eq_some_iff.1 ((ht _).trans (by rw [hx.place]; rfl))
  exact ⟨m, hm, congrArg Patchbay.Socket.datatype hsocket⟩

theorem Stands.source_magnet? (h : v.Stands settings d) (hs : v.Source number name s type) :
    ∃ m, d.magnet? s = some m ∧ m.datatype = type := by
  cases hs with
  | @input name i id hi =>
    have hmem : (i, id) ∈ v.inputs := (List.mem_filter.1 (hi ▸ List.mem_singleton_self _)).1
    have hm := map_socket_magnet? (h.input hmem) .output 0
    rw [Input.sockets_shape] at hm
    obtain ⟨m, hm, hsocket⟩ := Option.map_eq_some_iff.1 hm
    exact ⟨m, hm, congrArg Patchbay.Socket.datatype hsocket⟩
  | step _ hp => exact h.plug_magnet? hp

end Key

end Description

end Patchbay
