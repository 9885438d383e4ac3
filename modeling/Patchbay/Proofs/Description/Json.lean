import Patchbay.Description.Json
import Patchbay.Proofs.Json.Records

/-!
# Descriptions survive as JSON

A description that is written as JSON is read as the same description (`ofJson_toJson`): its names
may hold any characters, its numbers may be as great as 64 and 32 bits allow, datatypes may be there
or not, and lists may be empty. Of its reals it is asked that each is finite and reads back alone.
-/

namespace Patchbay

namespace Description

open Json

/-! ## Numbers in a description -/

/-- The indices and step numbers of a step. -/
def Step.counts (s : Step Double) : List Nat :=
  s.number :: (s.inputs.map Socket.index ++ s.outputs.map Socket.index ++
    s.cables.map CableIn.sourceStep)

def counts (d : Description Double) : List Nat :=
  d.inputs.map Input.index ++ d.steps.flatMap Step.counts ++
    d.outputs.flatMap fun o => [o.index, o.sourceStep]

/-- All places. -/
def reals (d : Description Double) : List Double :=
  d.inputs.flatMap (fun i => [i.x, i.y]) ++ d.steps.flatMap (fun s => [s.x, s.y]) ++
    d.outputs.flatMap fun o => [o.x, o.y]

def InRange (n : Nat) : Prop := n < UInt64.size

/-- The real is finite and reads back. -/
structure Kept (x : Double) : Prop where
  finite : ¬ (x.isNaN ∨ x.isInfinite)
  readsBack : ReadsBack x

theorem Kept.roundTrips {x : Double} (h : Kept x) : Codec.real.RoundTrips x :=
  Codec.roundTrips_real h.finite h.readsBack

/-! ## Records -/

theorem roundTrips_datatype (t : Datatype) : datatypeCodec.RoundTrips t where
  first := (Codec.roundTrips_code t.code).first
  readAs := (Codec.roundTrips_code t.code).readAs.map

theorem Input.roundTrips {i : Input Double} (hindex : InRange i.index) (hx : Kept i.x)
    (hy : Kept i.y) : Input.format.codec.RoundTrips i :=
  Format.roundTrips_codec (by decide) <|
    .required (Codec.roundTrips_text _) <| .required (Codec.roundTrips_count hindex) <|
    .required hx.roundTrips <| .required hy.roundTrips <|
    .optional (fun t _ => roundTrips_datatype t) rfl <| .nil _

theorem Socket.roundTrips {p : Socket} (hindex : InRange p.index) :
    Socket.format.codec.RoundTrips p :=
  Format.roundTrips_codec (by decide) <|
    .required (Codec.roundTrips_text _) <| .required (Codec.roundTrips_count hindex) <|
    .optional (fun t _ => roundTrips_datatype t) rfl <| .nil _

theorem CableIn.roundTrips {c : CableIn} (hsource : InRange c.sourceStep) :
    CableIn.format.codec.RoundTrips c :=
  Format.roundTrips_codec (by decide) <|
    .required (Codec.roundTrips_count hsource) <| .required (Codec.roundTrips_text _) <|
    .required (Codec.roundTrips_text _) <| .nil _

theorem Step.roundTrips {s : Step Double} (hcounts : ∀ n ∈ s.counts, InRange n) (hx : Kept s.x)
    (hy : Kept s.y) : Step.format.codec.RoundTrips s := by
  simp only [Step.counts, List.mem_cons, List.mem_append, List.mem_map] at hcounts
  have hinputs : ∀ p ∈ s.inputs, Socket.format.codec.RoundTrips p := fun p hp =>
    Socket.roundTrips (hcounts _ (.inr (.inl (.inl ⟨p, hp, rfl⟩))))
  have houtputs : ∀ p ∈ s.outputs, Socket.format.codec.RoundTrips p := fun p hp =>
    Socket.roundTrips (hcounts _ (.inr (.inl (.inr ⟨p, hp, rfl⟩))))
  have hcables : ∀ c ∈ s.cables, CableIn.format.codec.RoundTrips c := fun c hc =>
    CableIn.roundTrips (hcounts _ (.inr (.inr ⟨c, hc, rfl⟩)))
  exact Format.roundTrips_codec (by decide) <|
    .required (Codec.roundTrips_text _) <|
    .required (Codec.roundTrips_count (hcounts _ (.inl rfl))) <|
    .required hx.roundTrips <| .required hy.roundTrips <|
    .defaulted (Codec.roundTrips_listOf hinputs) <|
    .defaulted (Codec.roundTrips_listOf houtputs) <|
    .defaulted (Codec.roundTrips_listOf hcables) <| .nil _

theorem Output.roundTrips {o : Output Double} (hindex : InRange o.index)
    (hsource : InRange o.sourceStep) (hx : Kept o.x) (hy : Kept o.y) :
    Output.format.codec.RoundTrips o :=
  Format.roundTrips_codec (by decide) <|
    .required (Codec.roundTrips_text _) <| .required (Codec.roundTrips_count hindex) <|
    .required (Codec.roundTrips_count hsource) <| .required (Codec.roundTrips_text _) <|
    .required hx.roundTrips <| .required hy.roundTrips <|
    .optional (fun t _ => roundTrips_datatype t) rfl <| .nil _

theorem roundTrips {d : Description Double} (hcounts : ∀ n ∈ d.counts, InRange n)
    (hreals : ∀ x ∈ d.reals, Kept x) : format.codec.RoundTrips d := by
  simp only [counts, reals, List.mem_append, List.mem_flatMap, List.mem_map] at hcounts hreals
  have hinputs : ∀ i ∈ d.inputs, Input.format.codec.RoundTrips i := fun i hi =>
    Input.roundTrips (hcounts _ (.inl (.inl ⟨i, hi, rfl⟩)))
      (hreals _ (.inl (.inl ⟨i, hi, by simp⟩))) (hreals _ (.inl (.inl ⟨i, hi, by simp⟩)))
  have hsteps : ∀ s ∈ d.steps, Step.format.codec.RoundTrips s := fun s hs =>
    Step.roundTrips (fun n hn => hcounts n (.inl (.inr ⟨s, hs, hn⟩)))
      (hreals _ (.inl (.inr ⟨s, hs, by simp⟩))) (hreals _ (.inl (.inr ⟨s, hs, by simp⟩)))
  have houtputs : ∀ o ∈ d.outputs, Output.format.codec.RoundTrips o := fun o ho =>
    Output.roundTrips (hcounts _ (.inr ⟨o, ho, by simp⟩)) (hcounts _ (.inr ⟨o, ho, by simp⟩))
      (hreals _ (.inr ⟨o, ho, by simp⟩)) (hreals _ (.inr ⟨o, ho, by simp⟩))
  exact Format.roundTrips_codec (by decide) <|
    .required (Codec.roundTrips_listOf hinputs) <| .required (Codec.roundTrips_listOf hsteps) <|
    .defaulted (Codec.roundTrips_listOf houtputs) <| .nil _

/-! ## Descriptions -/

/-- A description whose reals are finite and read back is read as it was written. -/
theorem ofJson_toJson {d : Description Double} (hcounts : ∀ n ∈ d.counts, n < UInt64.size)
    (hfinite : ∀ x ∈ d.reals, ¬ (x.isNaN ∨ x.isInfinite)) (hback : ∀ x ∈ d.reals, ReadsBack x) :
    ofJson d.toJson = .ok d := by
  have h := roundTrips hcounts fun x hx => ⟨hfinite x hx, hback x hx⟩
  have htakes := h.takes 0 Reader.ends_nil
  refine Reader.Takes.readAll (r := format.read) ?_
  rw [toJson, String.toList_ofList]
  rwa [List.append_nil] at htakes

/-- A description with characters that are escaped, the greatest index, and both kinds of inputs. -/
def oddNames : Description Double where
  inputs := [⟨"\"a\\\n\x01é𝄞", UInt64.size - 1, ⟨0x3fb999999999999a⟩, ⟨0x3fe0000000000000⟩, none⟩,
    ⟨"", 0, ⟨0⟩, ⟨0x8000000000000000⟩, some ⟨0xffffffff⟩⟩]
  steps := [⟨"f", 1, ⟨0x7fe1ccf385ebc8a0⟩, ⟨0x0010000000000000⟩, [], [⟨"y", 1, some ⟨3⟩⟩],
    [⟨0, "a", "x"⟩]⟩]
  outputs := []

theorem ofJson_toJson_oddNames :
    ((∀ n ∈ oddNames.counts, n < UInt64.size) ∧
      (∀ x ∈ oddNames.reals, ¬ (x.isNaN ∨ x.isInfinite)) ∧ ∀ x ∈ oddNames.reals, ReadsBack x) ∧
    ofJson oddNames.toJson = .ok oddNames := by
  have hcounts : ∀ n ∈ oddNames.counts, n < UInt64.size := by decide
  have hfinite : ∀ x ∈ oddNames.reals, ¬ (x.isNaN ∨ x.isInfinite) := by decide
  have hback : ∀ x ∈ oddNames.reals, ReadsBack x := by
    intro x hx
    have hstart : Text.Cursor.start (String.ofList (writeReal x)) = ⟨writeReal x, 0⟩ := by
      rw [Text.Cursor.start, String.toList_ofList]
    rw [ReadsBack, Reader.readAll, hstart]
    clear hstart
    revert x
    decide +kernel
  exact ⟨⟨hcounts, hfinite, hback⟩, ofJson_toJson hcounts hfinite hback⟩

end Description

end Patchbay
