import Quill.Command.Report

/-! # The command line

Reads the named files and standard input, and prints what the command reports.
-/
namespace Quill.Command

def findFile (name : String) : IO FileState := do
  try
    return .contents (← IO.FS.readBinFile name).data.toList
  catch e =>
    match e with
    | .noFileOrDirectory .. => return .missing
    | .inappropriateType .. => return .directory
    | _ => return .unopenable (toString e)

def findFiles (names : List String) : IO (List (String × FileState)) :=
  names.mapM fun name => return (name, ← findFile name)

/-- Standard input is read only where programs are run. -/
def stdinFor (o : Options) : IO Feed := do
  if o.emit = .run then
    let bytes ← (← IO.getStdin).readBinToEnd
    return .ofBytes bytes.data.toList Input.standardRoom false .closed
  else return .whole []

end Quill.Command

open Quill Quill.Command in
def main (args : List String) : IO UInt32 := do
  let request := Request.ofArgs args
  let files ← match request with
    | .compile o => findFiles o.files
    | _ => pure []
  let stdin ← match request with
    | .compile o => stdinFor o
    | _ => pure (.whole [])
  let find (name : String) : FileState := (files.lookup name).getD .missing
  match request.report (2 ^ (62 : Nat)) find stdin with
  | none => return 1
  | some report =>
    (← IO.getStdout).write ⟨report.stdout.toArray⟩
    (← IO.getStderr).write ⟨report.stderr.toArray⟩
    return report.status.toUInt32
