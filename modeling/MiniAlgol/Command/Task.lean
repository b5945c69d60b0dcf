import MiniAlgol.Command.Options
import MiniAlgol.Command.Path
import MiniAlgol.Json.Reader
import MiniAlgol.Json.Writer
import MiniAlgol.Session
import MiniAlgol.Source.Program
import MiniAlgol.Text.Stored
import MiniAlgol.Tree.Load
import MiniAlgol.Tree.Save

/-!
What the command does: save the tree of a source file, run a saved tree, or run a source file.

A task reads one file and comes to a report, which says what to print, what to write and how to
end. Errors in a program are reported and end the command; a few other errors, which no report is
made for, are passed on.
-/

namespace MiniAlgol.Command

/-- Something to do with one file. -/
inductive Task where
  | emit (path : Path)
  | runTree (path : Path) (level : Nat)
  | runSource (path : Path) (level : Nat)
  deriving DecidableEq, Repr

namespace Task

/-- A text that is there and not empty. -/
def nonempty (s : Option String) : Option String :=
  s.filter fun s => !s.isEmpty

/-- The task that options ask for, if they name a file. -/
def ofOptions? (o : Options) : Option Task :=
  match nonempty o.emitAst, nonempty o.ast, nonempty o.program with
  | some file, _, _ => some (.emit (Path.ofText file))
  | none, some file, _ => some (.runTree (Path.ofText file) o.verbosity)
  | none, none, some file => some (.runSource (Path.ofText file) o.verbosity)
  | none, none, none => none

def path : Task → Path
  | emit path => path
  | runTree path _ => path
  | runSource path _ => path

end Task

/-- What is found under a path. -/
inductive Found where
  | nothing
  | directory
  | file (content : ByteArray)

/-- An error that no report is made for. -/
inductive Escape where
  | notText
  | directory
  | json (e : Json.ReadError)
  | load (e : LoadError)
  /-- A program stopped otherwise than by an error of the language. -/
  | stop (s : Stop)

/-- How the command ends. -/
inductive Ending where
  | exit (code : Nat)
  | escape (e : Escape)

/-- What the command does in the end. -/
structure Report where
  out : String := ""
  err : String := ""
  writes : List (Path × String) := []
  ending : Ending := .exit 0

namespace Report

/-- Ends with an error that is passed on. -/
def escaped (e : Escape) : Report :=
  { ending := .escape e }

def refused (code : Nat) (err : String) : Report :=
  { err, ending := .exit code }

def misuse (message : String) : Report :=
  refused 2 (usageError message)

/-- The report of a file that is not there. -/
def notFound (path : Path) : Report :=
  refused 1 ("Error: file " ++ path.text ++ " not found\n")

end Report

def tracePath : Path := Path.ofText "debug.txt"

/-- Where the tree of a source file is saved. -/
def emittedPath (source : Path) : Path :=
  source.extend ".ast.json"

/-- Runs a program and reports. `blocked` says where no file can be written. -/
def runReport (blocked : Path → Bool) (level : Nat) (program : Node) : Report :=
  if 0 < level && blocked tracePath then Report.escaped .directory
  else
    let (result, m) := (runProgram ampleFuel program).on { level }
    let writes := match m.trace with
      | some trace => [(tracePath, trace)]
      | none => []
    match result with
    | .ok () => { out := m.output, writes }
    | .error (.fault f) =>
      match f.report? with
      | some report =>
        { out := m.output, err := "Runtime error: " ++ report ++ "\n", writes, ending := .exit 1 }
      | none => { out := m.output, writes, ending := .escape (.stop (.fault f)) }
    | .error stop => { out := m.output, writes, ending := .escape (.stop stop) }

/-- Parses a source and goes on, or reports what is wrong with it. -/
def withProgram (source : String) (next : Node → Report) : Report :=
  match Source.parse source with
  | .ok program => next program
  | .error e => Report.refused 1 ("Syntax error: " ++ e.summary ++ "\n")

def emitReport (blocked : Path → Bool) (source : Path) (program : Node) : Report :=
  let target := emittedPath source
  if blocked target then Report.escaped .directory
  else { out := target.text ++ "\n", writes := [(target, program.toJson.pretty)] }

def runSaved (blocked : Path → Bool) (level : Nat) (text : String) : Report :=
  match Json.read text with
  | .error e => Report.escaped (.json e)
  | .ok j =>
    match Node.ofJson j with
    | .error e => Report.escaped (.load e)
    | .ok program => runReport blocked level program

/-- Does a task, given what is under its path. -/
def Task.perform (task : Task) (blocked : Path → Bool) (found : Found) : Report :=
  match found with
  | .nothing => Report.notFound task.path
  | .directory => Report.escaped .directory
  | .file content =>
    match Text.decode content with
    | none => Report.escaped .notText
    | some text =>
      match task with
      | .emit path => withProgram text (emitReport blocked path)
      | .runTree _ level => runSaved blocked level text
      | .runSource _ level => withProgram text (runReport blocked level)

/-- The task that arguments ask for, or the report to make instead. -/
def Task.ofArguments (arguments : List String) : Except Report Task :=
  match Request.ofArguments arguments with
  | .error message => .error (Report.misuse message)
  | .ok .help => .error { out := helpText }
  | .ok (.options o) =>
    match Task.ofOptions? o with
    | some task => .ok task
    | none => .error (Report.misuse "missing program file; or use --emit-ast/--ast")

end MiniAlgol.Command
