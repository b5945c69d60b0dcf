import MiniAlgol.Command.Task

/-!
The command on a tree of files.

The tree is given by the files in it and by the directory in which the command is run. A directory
is there when a file is in it or below it, or when the command is run in it or below it. Every place
is named by its parts from the root on.
-/

namespace MiniAlgol.Command

/-- The files that a command finds and leaves. -/
structure Workspace where
  /-- Where the command is run, and so where relative paths begin. -/
  directory : List String := []
  /-- The files, in the order in which they were made. -/
  files : List (List String × ByteArray) := []

namespace Workspace

def file? (w : Workspace) (place : List String) : Option ByteArray :=
  w.files.lookup place

def hasDirectory (w : Workspace) (place : List String) : Bool :=
  place.isPrefixOf w.directory
    || w.files.any fun (name, _) => place.isPrefixOf name && place != name

/-- Follows a path part by part, to the place where it leads. Every part but the last must be a
directory, and what is around the root is the root. -/
def follow (w : Workspace) : List String → List String → Option (List String)
  | here, [] => some here
  | here, part :: rest =>
    if !w.hasDirectory here then none
    else if part = Path.up then follow w here.dropLast rest
    else follow w (here ++ [part]) rest

/-- Where a path begins. -/
def start (w : Workspace) (path : Path) : List String :=
  if path.isAbsolute then [] else w.directory

/-- Where a path leads, whether or not something is there. -/
def resolve (w : Workspace) (path : Path) : Option (List String) :=
  w.follow (w.start path) path.parts

def find (w : Workspace) (path : Path) : Found :=
  match w.resolve path with
  | some place =>
    match w.file? place with
    | some content => .file content
    | none => if w.hasDirectory place then .directory else .nothing
  | none => .nothing

/-- Whether a directory keeps a file from being written here. -/
def blocked (w : Workspace) (path : Path) : Bool :=
  match w.find path with
  | .directory => true
  | _ => false

/-- Puts a file into a list of files, in the place of an older one. -/
def putFile (place : List String) (content : ByteArray) :
    List (List String × ByteArray) → List (List String × ByteArray)
  | [] => [(place, content)]
  | (name, old) :: rest =>
    if name = place then (name, content) :: rest else (name, old) :: putFile place content rest

def write (w : Workspace) (path : Path) (content : ByteArray) : Workspace :=
  match w.resolve path with
  | some place => { w with files := putFile place content w.files }
  | none => w

def run (w : Workspace) (arguments : List String) : Report × Workspace :=
  let report := match Task.ofArguments arguments with
    | .error report => report
    | .ok task => task.perform w.blocked (w.find task.path)
  (report, report.writes.foldl (fun w (path, text) => w.write path (Text.encode text)) w)

end Workspace

end MiniAlgol.Command
