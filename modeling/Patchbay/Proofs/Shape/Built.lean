import Patchbay.Proofs.Diagram.Views

/-!
# Shapes as they are built

Every shape on the canvas was built as one of five kinds, and has since at most been moved and got
cables. So its kind says which magnets it has: only steps have magnets on both sides.
-/

namespace Patchbay

namespace Magnet

variable {α : Type}

def socket (m : Magnet α) : Socket := ⟨m.label, m.datatype⟩

theorem map_socket_clear (ms : List (Magnet α)) :
    (ms.map clear).map socket = ms.map socket := by
  rw [List.map_map]
  rfl

end Magnet

namespace Shape

variable {α : Type} [Scalar α]

/-- The shape is as it was built. -/
inductive Built : Shape α → Prop
  | rawInput (label : String) (centre : Point α) : Built (rawInput label centre)
  | typedInput (label : String) (datatype : Datatype) (centre : Point α) :
      Built (typedInput label datatype centre)
  | step (label : String) (inputs outputs : List Socket) (centre : Point α) :
      Built (step label inputs outputs centre)
  | output (label : String) (datatype : Option Datatype) (centre : Point α) :
      Built (output label datatype centre)
  | zone (bounds : Box α) : Built (zone bounds)

/-- Some shape was built like this. -/
def Body.Conforms (b : Body α) : Prop := ∃ s : Shape α, s.Built ∧ s.body = b

theorem Built.conforms {s : Shape α} (h : s.Built) : s.body.Conforms := ⟨s, h, rfl⟩

/-- Outputs have no output magnets. -/
theorem Body.Conforms.outputs_eq_nil {b : Body α} (h : b.Conforms) {datatype : Option Datatype}
    (hk : b.kind = .output datatype) : b.outputs = [] := by
  obtain ⟨s, hs, rfl⟩ := h
  cases hs <;> first | rfl | cases hk

/-- Inputs and steps have output magnets, and no other shapes. -/
theorem Body.Conforms.isInput_or_isStep {s : Shape α} (h : s.body.Conforms) (hne : s.outputs ≠ []) :
    s.isInput = true ∨ s.isStep = true := by
  obtain ⟨t, ht, hbody⟩ := h
  rw [← Diagram.bodily_isInput t s hbody, ← Diagram.bodily_isStep t s hbody]
  have hne' : t.body.outputs ≠ [] := by
    rw [hbody]
    exact fun hnil => hne (List.map_eq_nil_iff.1 hnil)
  cases ht with
  | rawInput | typedInput => exact .inl rfl
  | step => exact .inr rfl
  | output | zone => exact absurd rfl hne'

/-- Steps and outputs have input magnets, and no other shapes. -/
theorem Body.Conforms.isStep_or_isOutput {s : Shape α} (h : s.body.Conforms) (hne : s.inputs ≠ []) :
    s.isStep = true ∨ s.isOutput = true := by
  obtain ⟨t, ht, hbody⟩ := h
  rw [← Diagram.bodily_isStep t s hbody, ← Diagram.bodily_isOutput t s hbody]
  have hne' : t.body.inputs ≠ [] := by
    rw [hbody]
    exact fun hnil => hne (List.map_eq_nil_iff.1 hnil)
  cases ht with
  | step => exact .inl rfl
  | output => exact .inr rfl
  | rawInput | typedInput | zone => exact absurd rfl hne'

/-- Inputs of the pipeline have no input magnets. -/
theorem Body.Conforms.inputs_eq_nil {s : Shape α} (h : s.body.Conforms) (hin : s.isInput) :
    s.inputs = [] := by
  obtain ⟨t, ht, hbody⟩ := h
  rw [← Diagram.bodily_isInput t s hbody] at hin
  have hnil : s.body.inputs = [] := hbody ▸ by
    cases ht with
    | rawInput | typedInput => rfl
    | _ => cases hin
  exact List.map_eq_nil_iff.1 hnil

/-- Inputs of the pipeline have one output magnet. -/
theorem Body.Conforms.length_outputs {s : Shape α} (h : s.body.Conforms) (hin : s.isInput) :
    s.outputs.length = 1 := by
  obtain ⟨t, ht, hbody⟩ := h
  rw [← Diagram.bodily_isInput t s hbody] at hin
  have hlen : t.outputs.length = s.outputs.length := by
    simpa [body] using congrArg (fun b : Body α => b.outputs.length) hbody
  rw [← hlen]
  cases ht with
  | rawInput | typedInput => rfl
  | _ => cases hin

theorem side_of_mem_mount {sockets : List Socket} {side : Side} {width height : α} {m : Magnet α}
    (h : m ∈ mount sockets side width height) : m.side = side := by
  obtain ⟨x, -, rfl⟩ := List.mem_map.1 h
  rfl

/-- A magnet knows the side that it is on. -/
theorem Body.Conforms.side {b : Body α} (h : b.Conforms) {m : Magnet α} :
    (m ∈ b.inputs → m.side = .input) ∧ (m ∈ b.outputs → m.side = .output) := by
  have hmake : ∀ kind label centre inputs outputs,
      (m ∈ (make (α := α) kind label centre inputs outputs).body.inputs → m.side = .input) ∧
        (m ∈ (make kind label centre inputs outputs).body.outputs → m.side = .output) := by
    intro kind label centre inputs outputs
    constructor
    · intro hm
      obtain ⟨n, hn, rfl⟩ := List.mem_map.1 hm
      exact (side_of_mem_mount hn : n.side = .input)
    · intro hm
      obtain ⟨n, hn, rfl⟩ := List.mem_map.1 hm
      exact (side_of_mem_mount hn : n.side = .output)
  obtain ⟨s, hs, rfl⟩ := h
  cases hs <;> exact hmake _ _ _ _ _

/-- Only steps have more than one magnet on a side. -/
theorem Body.Conforms.length_magnets {s : Shape α} (h : s.body.Conforms) (hk : s.isStep = false)
    (side : Side) : (s.magnets side).length ≤ 1 := by
  obtain ⟨t, ht, hbody⟩ := h
  have hlen : (t.magnets side).length = (s.magnets side).length := by
    have hin := congrArg (fun b : Body α => b.inputs.length) hbody
    have hout := congrArg (fun b : Body α => b.outputs.length) hbody
    cases side with
    | input => simpa [body, magnets] using hin
    | output => simpa [body, magnets] using hout
  rw [← Diagram.bodily_isStep t s hbody] at hk
  rw [← hlen]
  cases ht with
  | step => cases hk
  | _ => cases side <;> simp [magnets, rawInput, typedInput, output, zone, make, mount]

/-! ## Building a shape again -/

theorem map_socket_mount (sockets : List Socket) (side : Side) (width height : α) :
    (mount sockets side width height).map Magnet.socket = sockets := by
  unfold mount
  rw [List.map_map]
  exact (List.map_congr_left fun _ _ => rfl).trans (List.zipIdx_map_fst 0 sockets)

/-- An input without a datatype is known by its label. -/
theorem Body.Conforms.eq_rawInput {b : Body α} (h : b.Conforms) (hk : b.kind = .rawInput)
    (p : Point α) : b = (rawInput b.label p).body := by
  obtain ⟨s, hs, rfl⟩ := h
  cases hs <;> first | rfl | cases hk

/-- An input with a datatype is known by its label and its datatype. -/
theorem Body.Conforms.eq_typedInput {b : Body α} (h : b.Conforms) {t : Datatype}
    (hk : b.kind = .typedInput t) (p : Point α) : b = (typedInput b.label t p).body := by
  obtain ⟨s, hs, rfl⟩ := h
  cases hs with
  | typedInput label datatype centre =>
    cases hk
    rfl
  | _ => cases hk

/-- An output is known by its label and its datatype. -/
theorem Body.Conforms.eq_output {b : Body α} (h : b.Conforms) {t : Option Datatype}
    (hk : b.kind = .output t) (p : Point α) : b = (output b.label t p).body := by
  obtain ⟨s, hs, rfl⟩ := h
  cases hs with
  | output label datatype centre =>
    cases hk
    rfl
  | _ => cases hk

/-- An output has one input magnet, which has its datatype. -/
theorem Body.Conforms.inputs_of_output {s : Shape α} (h : s.body.Conforms) {t : Option Datatype}
    (hk : s.kind = .output t) : ∃ m, s.inputs = [m] ∧ m.datatype = t := by
  have hsockets : s.inputs.map Magnet.socket = [⟨s.label, t⟩] :=
    calc s.inputs.map Magnet.socket = s.body.inputs.map Magnet.socket :=
          (Magnet.map_socket_clear s.inputs).symm
      _ = (output s.label t Point.origin : Shape α).body.inputs.map Magnet.socket :=
          congrArg (fun b => b.inputs.map Magnet.socket) (h.eq_output hk Point.origin)
      _ = [⟨s.label, t⟩] := (Magnet.map_socket_clear _).trans (map_socket_mount _ _ _ _)
  obtain ⟨m, hm, hsocket⟩ := List.map_eq_singleton_iff.1 hsockets
  exact ⟨m, hm, congrArg Socket.datatype hsocket⟩

/-- A step is known by its label and its sockets. -/
theorem Body.Conforms.eq_step {b : Body α} (h : b.Conforms) (hk : b.kind = .step) (p : Point α) :
    b = (step b.label (b.inputs.map Magnet.socket) (b.outputs.map Magnet.socket) p).body := by
  obtain ⟨s, hs, rfl⟩ := h
  cases hs with
  | step label inputs outputs centre =>
    have hi : (step label inputs outputs centre).body.inputs.map Magnet.socket = inputs :=
      (Magnet.map_socket_clear _).trans (map_socket_mount _ _ _ _)
    have ho : (step label inputs outputs centre).body.outputs.map Magnet.socket = outputs :=
      (Magnet.map_socket_clear _).trans (map_socket_mount _ _ _ _)
    rw [hi, ho]
    rfl
  | _ => cases hk

end Shape

end Patchbay
