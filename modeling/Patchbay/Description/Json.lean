import Patchbay.Description.Basic
import Patchbay.Json.Codec

/-!
# Descriptions as JSON

The fields by which descriptions are exchanged. Datatypes are left out where there are none. Lists
of sockets, cables and outputs may be left out when a description is read.
-/

namespace Patchbay

namespace Description

open Json

/-- The number of a datatype. -/
def datatypeCodec : Codec Datatype where
  read := return ⟨← Codec.code.read⟩
  write t := Codec.code.write t.code

/-- The fields of an input. -/
def Input.format : Format (Input Double) where
  name := "InputDescription"
  blank := ⟨"", 0, 0, 0, none⟩
  fields := [
    .required "dataset_name" .text Input.name fun i name => { i with name },
    .required "dataset_idx" .count Input.index fun i index => { i with index },
    .required "x" .real Input.x fun i x => { i with x },
    .required "y" .real Input.y fun i y => { i with y },
    .optional "compounddatatype" datatypeCodec Input.datatype
      fun i datatype => { i with datatype }]

/-- The fields of a socket. -/
def Socket.format : Format Socket where
  name := "PortDescription"
  blank := ⟨"", 0, none⟩
  fields := [
    .required "dataset_name" .text Socket.name fun p name => { p with name },
    .required "dataset_idx" .count Socket.index fun p index => { p with index },
    .optional "compounddatatype" datatypeCodec Socket.datatype
      fun p datatype => { p with datatype }]

/-- The fields of a cable into a step. -/
def CableIn.format : Format CableIn where
  name := "CableDescription"
  blank := ⟨0, "", ""⟩
  fields := [
    .required "source_step" .count CableIn.sourceStep fun c sourceStep => { c with sourceStep },
    .required "source_dataset_name" .text CableIn.sourceName
      fun c sourceName => { c with sourceName },
    .required "dest_dataset_name" .text CableIn.destName fun c destName => { c with destName }]

/-- The fields of a step. -/
def Step.format : Format (Step Double) where
  name := "StepDescription"
  blank := ⟨"", 0, 0, 0, [], [], []⟩
  fields := [
    .required "name" .text Step.name fun s name => { s with name },
    .required "step_num" .count Step.number fun s number => { s with number },
    .required "x" .real Step.x fun s x => { s with x },
    .required "y" .real Step.y fun s y => { s with y },
    .defaulted "inputs" (.listOf Socket.format.codec) Step.inputs
      fun s inputs => { s with inputs },
    .defaulted "outputs" (.listOf Socket.format.codec) Step.outputs
      fun s outputs => { s with outputs },
    .defaulted "cables_in" (.listOf CableIn.format.codec) Step.cables
      fun s cables => { s with cables }]

/-- The fields of an output. -/
def Output.format : Format (Output Double) where
  name := "OutcableDescription"
  blank := ⟨"", 0, 0, "", 0, 0, none⟩
  fields := [
    .required "output_name" .text Output.name fun o name => { o with name },
    .required "output_idx" .count Output.index fun o index => { o with index },
    .required "source_step" .count Output.sourceStep fun o sourceStep => { o with sourceStep },
    .required "source_dataset_name" .text Output.sourceName
      fun o sourceName => { o with sourceName },
    .required "x" .real Output.x fun o x => { o with x },
    .required "y" .real Output.y fun o y => { o with y },
    .optional "output_cdt" datatypeCodec Output.datatype fun o datatype => { o with datatype }]

/-- The fields of a description. -/
def format : Format (Description Double) where
  name := "PipelineDescription"
  blank := ⟨[], [], []⟩
  fields := [
    .required "inputs" (.listOf Input.format.codec) Description.inputs
      fun d inputs => { d with inputs },
    .required "steps" (.listOf Step.format.codec) Description.steps
      fun d steps => { d with steps },
    .defaulted "outcables" (.listOf Output.format.codec) Description.outputs
      fun d outputs => { d with outputs }]

def ofJson (text : String) : Except Fault (Description Double) := Reader.readAll format.read text

def toJson (d : Description Double) : String := String.ofList (format.write d 0)

end Description

end Patchbay
