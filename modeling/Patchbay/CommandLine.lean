import Patchbay.Canvas.Actions
import Patchbay.Report
import Patchbay.Settings.Toml
import Patchbay.Text.Controls

/-!
# The command line

What the program does for its arguments, as a function of the texts that it is given. It loads a
pipeline, lays it out again if asked to, and then checks it, prints its order of execution, or
writes it out.
-/

namespace Patchbay

namespace CommandLine

/-! ## Arguments -/

/-- What the arguments ask for. -/
structure Invocation where
  /-- The file of the pipeline. Without one it comes from standard input. -/
  source : Option String
  /-- The file of the settings. -/
  settings : Option String
  layOut : Bool
  check : Bool
  printOrder : Bool
deriving DecidableEq

namespace Invocation

def plain : Invocation := ⟨none, none, false, false, false⟩

/-- The name of the source in messages. -/
def sourceName (i : Invocation) : String := i.source.getD "<stdin>"

end Invocation

/-- What is wrong with the arguments. -/
inductive UsageError
  | unexpected (argument : String)
  | missingValue (option : String)
  | repeated (option : String)
  | superfluousValue (option value : String)
deriving DecidableEq

/-- The sentence that reports the error. Arguments are shown in it without controls. -/
def UsageError.message : UsageError → String
  | .unexpected argument =>
    "error: unexpected argument '" ++ Text.withoutControls argument ++ "' found"
  | .missingValue option =>
    "error: a value is required for '" ++ option ++ "' but none was supplied"
  | .repeated option =>
    "error: the argument '" ++ option ++ "' cannot be used multiple times"
  | .superfluousValue option value =>
    "error: unexpected value '" ++ Text.withoutControls value ++ "' for '" ++ option ++
      "' found; no more were expected"

/-- A reason not to run: help is wanted, or the arguments are wrong. -/
inductive Stop
  | help
  | usage (error : UsageError)
deriving DecidableEq

/-- The options without a value. -/
inductive Flag
  | layOut
  | check
  | printOrder
deriving DecidableEq

namespace Flag

/-- The option in messages. -/
def name : Flag → String
  | layOut => "--layout"
  | check => "--check"
  | printOrder => "--order"

/-- The flag of a long option. -/
def ofLong? : String → Option Flag
  | "layout" => some layOut
  | "check" => some check
  | "order" => some printOrder
  | _ => none

def ofShort? : Char → Option Flag
  | 'l' => some layOut
  | _ => none

/-- The flag is set. -/
def isSet (i : Invocation) : Flag → Bool
  | layOut => i.layOut
  | check => i.check
  | printOrder => i.printOrder

/-- Set the flag, once. -/
def set (i : Invocation) (f : Flag) : Except Stop Invocation :=
  if f.isSet i then .error (.usage (.repeated f.name))
  else match f with
    | layOut => .ok { i with layOut := true }
    | check => .ok { i with check := true }
    | printOrder => .ok { i with printOrder := true }

end Flag

/-- The option for the file of the settings, in messages. -/
def settingsOption : String := "--config <CONFIG>"

/-- The option that explains the arguments, in messages. -/
def helpOption : String := "--help"

/-- Set the file of the settings, once. Its name must not be empty. -/
def setSettings (i : Invocation) (file : String) : Except Stop Invocation :=
  if i.settings.isSome then .error (.usage (.repeated settingsOption))
  else if file.isEmpty then .error (.usage (.missingValue settingsOption))
  else .ok { i with settings := some file }

/-- Set the file of the pipeline. Its name must not be empty. -/
def setSource (i : Invocation) (file : String) : Except Stop Invocation :=
  if file.isEmpty then .error (.usage (.missingValue "[INPUT]"))
  else .ok { i with source := some file }

/-- What the last argument has left open. -/
inductive Pending
  /-- The name of the file of the settings is still to come. -/
  | settings
  /-- The file of the settings is named, but its name is not checked. -/
  | settingsFile (file : String)
  /-- The file of the pipeline is named, but its name is not checked. -/
  | sourceFile (file : String)
deriving DecidableEq

/-- What some arguments ask for. What is left open is settled by the next argument that is known, or
at the end, so that an unknown argument is reported first. -/
structure Intake where
  invocation : Invocation
  pending : Option Pending

namespace Intake

/-- What is asked for, once nothing is left open. -/
def settle (s : Intake) : Except Stop Invocation :=
  match s.pending with
  | none => .ok s.invocation
  | some .settings => .error (.usage (.missingValue settingsOption))
  | some (.settingsFile file) => setSettings s.invocation file
  | some (.sourceFile file) => setSource s.invocation file

/-- The file of the pipeline is named. -/
def hasSource (s : Intake) : Bool :=
  match s.pending with
  | some (.sourceFile _) => true
  | _ => s.invocation.source.isSome

def takeFlag (s : Intake) (f : Flag) : Except Stop Intake := do
  return ⟨← f.set (← s.settle), none⟩

def takeHelp (s : Intake) : Except Stop Intake := do
  let _ ← s.settle
  .error .help

/-- Take the option for the file of the settings, and the name that is joined to it if there is
one. -/
def takeSettings (s : Intake) (file : Option String) : Except Stop Intake := do
  let i ← s.settle
  match file with
  | none => return ⟨i, some .settings⟩
  | some file => return ⟨← setSettings i file, none⟩

/-- Take the letters of a short option. The letter for the settings may have a name behind it, with
an equals sign between them or without. -/
def takeLetters (s : Intake) : List Char → Except Stop Intake
  | [] => .ok s
  | 'h' :: _ => s.takeHelp
  | 'c' :: [] => s.takeSettings none
  | 'c' :: '=' :: value => s.takeSettings (some (String.ofList value))
  | 'c' :: value => s.takeSettings (some (String.ofList value))
  | letter :: letters =>
    match Flag.ofShort? letter with
    | some f => do takeLetters (← s.takeFlag f) letters
    | none => .error (.usage (.unexpected (String.ofList ['-', letter])))

/-- Take a long option, of which the dashes are passed. -/
def takeLong (s : Intake) (option : List Char) : Except Stop Intake :=
  let name := String.ofList (option.takeWhile (· ≠ '='))
  let value := ((option.dropWhile (· ≠ '=')).tail?).map String.ofList
  match name, Flag.ofLong? name, value with
  | "config", _, file => s.takeSettings file
  | "help", _, none => s.takeHelp
  | "help", _, some v => .error (.usage (.superfluousValue helpOption v))
  | _, some f, none => s.takeFlag f
  | _, some f, some v => .error (.usage (.superfluousValue f.name v))
  | _, none, _ => .error (.usage (.unexpected ("--" ++ name)))

/-- Take the file of the pipeline, of which there is one. -/
def takeSource (s : Intake) (file : String) : Except Stop Intake :=
  if s.hasSource then .error (.usage (.unexpected file))
  else do return ⟨← s.settle, some (.sourceFile file)⟩

/-- Take an argument. A single dash is the name of a file. -/
def take (s : Intake) (argument : String) : Except Stop Intake :=
  match argument.toList with
  | '-' :: '-' :: option => s.takeLong option
  | '-' :: letter :: letters => s.takeLetters (letter :: letters)
  | _ =>
    match s.pending with
    | some .settings => .ok { s with pending := some (.settingsFile argument) }
    | _ => s.takeSource argument

/-- Take all arguments. After two dashes there are no more options. -/
def takeAll (s : Intake) : List String → Except Stop Invocation
  | [] => s.settle
  | "--" :: files => do (← files.foldlM takeSource s).settle
  | argument :: rest => do takeAll (← s.take argument) rest

end Intake

/-- The invocation that arguments ask for. -/
def parse (arguments : List String) : Except Stop Invocation :=
  Intake.takeAll ⟨.plain, none⟩ arguments

/-! ## Outcomes -/

/-- What the program leaves: its exit code, and what it prints to both streams, line by line. A line
may hold line breaks of its own. -/
structure Outcome where
  exitCode : UInt32
  output : List String
  errors : List String
deriving DecidableEq

namespace Outcome

def textOf (lines : List String) : String := String.join (lines.map (· ++ "\n"))

def success (output : List String) : Outcome := ⟨0, output, []⟩

def failure (errors : List String) : Outcome := ⟨1, [], errors⟩

/-- The outcome with more errors before the others. -/
def after (errors : List String) (o : Outcome) : Outcome := { o with errors := errors ++ o.errors }

end Outcome

/-- The lines that explain the arguments. -/
def helpLines : List String := [
  "Check, order and lay out pipeline descriptions",
  "",
  "Usage: patchbay [OPTIONS] [INPUT]",
  "",
  "Arguments:",
  "  [INPUT]  Pipeline description in JSON (reads from stdin if not provided)",
  "",
  "Options:",
  "  -c, --config <CONFIG>  Canvas configuration file (TOML format)",
  "  -l, --layout           Lay the pipeline out again before writing it",
  "      --check            Run the integrity check and report the result",
  "      --order            Print the execution order, one phase per line",
  "  -h, --help             Print help"]

/-- What is left when the program does not run. -/
def Stop.outcome : Stop → Outcome
  | .help => .success helpLines
  | .usage e => { Outcome.failure [e.message] with exitCode := 2 }

/-! ## Running -/

def phaseLine (d : Diagram Double) (layer : List ShapeId) (i : Nat) : String :=
  s!"{i + 1}: " ++ ", ".intercalate (layer.filterMap fun id => (d.shape? id).map (·.label))

/-- Print the order of execution. -/
def printOrder (c : Canvas Double) : Outcome :=
  match c.phases with
  | none => .failure ["Error: execution order is indeterminate"]
  | some p =>
    let lines := p.layers.zipIdx.map fun (layer, i) => phaseLine c.diagram layer i
    if p.isAmbiguous then
      ⟨0, lines,
        ["Note: execution order is ambiguous; shared phases follow canvas reading order"]⟩
    else .success lines

/-- Check the pipeline. -/
def checkPipeline (c : Canvas Double) : Outcome :=
  match c.diagram.checkIntegrity with
  | .ok () => .success ["ok"]
  | .error e => .failure ["Error: " ++ e.message]

/-- Write the pipeline out. -/
def writePipeline (c : Canvas Double) : Outcome :=
  match c.save with
  | .ok text => .success [text]
  | .error e => .failure ["Error: " ++ e.saveMessage]

/-- Do what is asked for with a canvas. -/
def finish (i : Invocation) (c : Canvas Double) : Outcome :=
  if i.check then checkPipeline c
  else if i.printOrder then printOrder c
  else writePipeline c

/-- Lay a canvas out if that is asked for, and do the rest. Without a layout the rest is done all
the same. -/
def layOutAndFinish (i : Invocation) (c : Canvas Double) : Outcome :=
  if i.layOut then
    match Canvas.layOut.run c with
    | (.ok _, c) => finish i c
    | (.error e, c) => (finish i c).after ["Warning: layout skipped: " ++ e.message]
  else finish i c

/-- A text that has been read, or the reason why it cannot be. -/
abbrev Source := Except String String

/-- The settings that are asked for. -/
def settingsFrom (text : Option Source) : Except SettingsError (Settings Double) :=
  match text with
  | none => .ok .standard
  | some (.error reason) => .error (.unreadable reason)
  | some (.ok text) => Settings.ofToml text

/-- Run the program on the text of the settings, if a file is named for them, and the text of the
pipeline. -/
def run (i : Invocation) (settings : Option Source) (source : Source) : Outcome :=
  match settingsFrom settings with
  | .error e =>
    .failure ["Error loading config '" ++ i.settings.getD "" ++ "': " ++ e.message]
  | .ok s =>
    match source with
    | .error reason =>
      .failure ["Error reading '" ++ i.sourceName ++ "': " ++ (LoadError.unreadable reason).message]
    | .ok text =>
      match Canvas.load s text with
      | .error e => .failure (Report.ofError text i.sourceName e).lines
      | .ok c => layOutAndFinish i c

end CommandLine

end Patchbay
