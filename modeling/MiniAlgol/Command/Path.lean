/-!
Paths of files.

A path is kept without empty parts and without parts that mean "here", so that equal places under
the same parts are written alike. A part that means "up" stays, because what it leads to depends
on what is there.
-/

namespace MiniAlgol.Command

/-- A path by its parts. -/
structure Path where
  /-- What is written before the first part: nothing, where the path is not an absolute one. -/
  root : String := ""
  parts : List String
  deriving DecidableEq, Repr, Inhabited

namespace Path

def up : String := ".."

/-- The root that a text begins with. Two slashes are kept apart from one, and more than two are
the same as one. -/
def rootOf : List Char → String
  | '/' :: '/' :: '/' :: _ => "/"
  | '/' :: '/' :: _ => "//"
  | '/' :: _ => "/"
  | _ => ""

def ofText (s : String) : Path where
  root := rootOf s.toList
  parts := ((s.toList.splitOn '/').map String.ofList).filter fun part => part != "" && part != "."

def isAbsolute (p : Path) : Bool :=
  p.root != ""

def text (p : Path) : String :=
  let body := "/".intercalate p.parts
  if p.isAbsolute || !p.parts.isEmpty then p.root ++ body else "."

/-- The path with something added to its last part. -/
def extend (p : Path) (ending : String) : Path :=
  match p.parts.reverse with
  | last :: rest => { p with parts := ((last ++ ending) :: rest).reverse }
  | [] => p

end Path

end MiniAlgol.Command
