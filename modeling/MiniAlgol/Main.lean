import MiniAlgol.Command.Task

/-!
The command line: reads the file of a task, and prints and writes what the report says.
-/

namespace MiniAlgol.Command

/-- What is under a path of the system. -/
def lookAt (path : Path) : IO Found := do
  try
    return .file (← IO.FS.readBinFile path.text)
  catch
    | .noFileOrDirectory .. => return .nothing
    | _ => return .directory

/-- One line about an error that no report is made for. -/
def Escape.line : Escape → String
  | .notText => "the file is not UTF-8"
  | .directory => "a directory is in the way"
  | .json _ => "the file is not JSON"
  | .load e => e.message
  | .stop (.fault f) => f.message
  | .stop .outOfFuel => "the program does not come to an end"

end MiniAlgol.Command

open MiniAlgol MiniAlgol.Command in
/-- Runs the command with the arguments of the process. -/
def main (arguments : List String) : IO UInt32 := do
  let report ← match Task.ofArguments arguments with
    | .error report => pure report
    | .ok task => do
      let found ← lookAt task.path
      pure (task.perform (fun _ => false) found)
  for (path, text) in report.writes do
    IO.FS.writeBinFile path.text (Text.encode text)
  IO.print report.out
  IO.eprint report.err
  match report.ending with
  | .exit code => return code.toUInt32
  | .escape e => do
    IO.eprintln e.line
    return 1
