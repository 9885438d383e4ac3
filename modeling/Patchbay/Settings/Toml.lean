import Patchbay.Settings
import Patchbay.Toml.Document

/-!
# Settings as TOML

Settings are read from a document with up to four sections, over the standard settings. A section is
a table of keys, each of which may be left out, or an array of the values of all its keys in order.
Other sections and keys are refused. What is refused is reported where it stands: a key, a value, or
the whole of a section.
-/

namespace Patchbay

/-- Why settings cannot be had. -/
inductive SettingsError
  /-- The text cannot be read from where it is. -/
  | unreadable (reason : String)
  /-- The text is no TOML, or TOML for something else. -/
  | malformed (place : Text.Place)
  /-- The settings are not usable. -/
  | unusable (fault : Settings.Fault)
deriving DecidableEq

/-- The sentence that reports the error. -/
def SettingsError.message : SettingsError → String
  | .unreadable reason => "failed to read config file: " ++ reason
  | .malformed place =>
    "failed to parse config TOML: TOML parse error" ++
      s!" at line {place.line}, column {place.column}"
  | .unusable fault => fault.message

namespace Settings

/-- A key of a section, and what its value changes. -/
structure Entry where
  key : String
  put? : Toml.Value → Settings Double → Option (Settings Double)

/-- The changed settings, or the number of bytes before what is refused. -/
abbrev Overlay := Except Nat (Settings Double)

namespace Entry

/-- Give the key a value. -/
def put (e : Entry) (v : Toml.Placed Toml.Value) (s : Settings Double) : Overlay :=
  match e.put? v.it s with
  | some s => .ok s
  | none => .error v.index

/-- A key with a number. It may be written as an integer. -/
def real (key : String) (put : Settings Double → Double → Settings Double) : Entry where
  key
  put? v s := match v with
    | .real x => some (put s x)
    | .integer n => some (put s (if n < 0 then -(n.natAbs : Double) else n.natAbs))
    | _ => none

/-- A key with a natural number. -/
def count (key : String) (put : Settings Double → Nat → Settings Double) : Entry where
  key
  put? v s := match v with
    | .integer n => if 0 ≤ n then some (put s n.toNat) else none
    | _ => none

/-- A key with a truth value. -/
def flag (key : String) (put : Settings Double → Bool → Settings Double) : Entry where
  key
  put? v s := match v with
    | .boolean b => some (put s b)
    | _ => none

end Entry

/-- The sections and their keys. -/
def sections : List (String × List Entry) := [
  ("canvas", [
    .real "width" fun s width => { s with width },
    .real "height" fun s height => { s with height },
    .real "output_zone_fraction" fun s zoneFraction => { s with zoneFraction },
    .real "output_zone_aspect" fun s zoneAspect => { s with zoneAspect }]),
  ("collision", [
    .real "step" fun s pushStep => { s with pushStep },
    .real "drag_bias" fun s dragBias => { s with dragBias },
    .real "relayout_bias" fun s relayoutBias => { s with relayoutBias },
    .count "max_pushes" fun s maxPushes => { s with maxPushes },
    .count "max_followup_depth" fun s maxFollowupDepth => { s with maxFollowupDepth }]),
  ("layout", [
    .real "node_spacing" fun s nodeSpacing => { s with nodeSpacing },
    .real "layer_spacing" fun s layerSpacing => { s with layerSpacing },
    .real "margin" fun s margin => { s with margin },
    .flag "preserve_aspect" fun s keepAspect => { s with keepAspect }]),
  ("connector", [
    .real "hit_padding" fun s hitPadding => { s with hitPadding }])]

/-- Lay a section over settings. -/
def overlaySection (keys : List Entry) (v : Toml.Placed Toml.Value) (s : Settings Double) :
    Overlay :=
  match v.it with
  | .table _ entries => entries.foldlM (fun s (key, v) =>
      match keys.find? (·.key = key.it) with
      | some e => e.put v s
      | none => .error key.index) s
  | .array items => do
    let s ← (keys.zip items).foldlM (fun s (e, v) => e.put v s) s
    if items.length < keys.length then .error v.index else .ok s
  | _ => .error v.index

/-- Lay the sections of a document over settings. -/
def overlay (t : Toml.Table) (s : Settings Double) : Overlay :=
  t.entries.foldlM (fun s (name, v) =>
    match sections.lookup name.it with
    | some keys => overlaySection keys v s
    | none => .error name.index) s

/-- The settings of a text, if they are usable. -/
def ofToml (text : String) : Except SettingsError (Settings Double) :=
  match Toml.parse text >>= (overlay · standard) with
  | .error index => .error (.malformed (Toml.place text index))
  | .ok s =>
    match s.validate with
    | .ok () => .ok s
    | .error fault => .error (.unusable fault)

end Settings

end Patchbay
