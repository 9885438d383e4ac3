import Patchbay.CommandLine

/-!
# The program

Reads the arguments, the files they name and standard input, and prints what comes of them.
-/

namespace Patchbay

namespace CommandLine

/-- The reason that is given for an error of the system. -/
def systemReason (e : IO.Error) : String :=
  let shown (details : String) (code : UInt32) : String := details ++ s!" (os error {code})"
  match e with
  | .noFileOrDirectory _ code details => shown details code
  | .permissionDenied _ code details => shown details code
  | .inappropriateType _ code details => shown details code
  | .invalidArgument _ code details => shown details code
  | e => toString e

/-- The text of some bytes. -/
def decode (bytes : ByteArray) : Source :=
  match String.fromUTF8? bytes with
  | some text => .ok text
  | none => .error "stream did not contain valid UTF-8"

/-- Read a file. -/
def readFile (path : String) : IO Source := do
  try
    return decode (← IO.FS.readBinFile path)
  catch e => return .error (systemReason e)

/-- Read standard input to its end. -/
def readInput : IO Source := do
  try
    return decode (← (← IO.getStdin).readBinToEnd)
  catch e => return .error (systemReason e)

/-- Print what the program leaves. -/
def Outcome.print (o : Outcome) : IO UInt32 := do
  IO.print (textOf o.output)
  IO.eprint (textOf o.errors)
  return o.exitCode

end CommandLine

end Patchbay

open Patchbay.CommandLine in
/-- Run the program. -/
def main (arguments : List String) : IO UInt32 := do
  match parse arguments with
  | .error stop => stop.outcome.print
  | .ok i => do
    let settings ← i.settings.mapM readFile
    let source ← match i.source with
      | some path => readFile path
      | none => readInput
    (run i settings source).print
