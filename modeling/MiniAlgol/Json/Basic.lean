/-!
JSON values.

Integers and reals are kept apart, and the members of an object keep the order in which their
names first came.
-/

namespace MiniAlgol

/-- A JSON value. -/
inductive Json where
  | null
  | bool (b : Bool)
  | int (n : Int)
  | real (x : Float)
  | str (s : String)
  | arr (items : List Json)
  | obj (members : List (String × Json))
  deriving Inhabited

namespace Json

/-- Members of an object, in order. -/
abbrev Members := List (String × Json)

def Members.get? (members : Members) (name : String) : Option Json :=
  members.lookup name

/-- Sets a member: a known name keeps its place, a new one goes to the end. -/
def Members.put : Members → String → Json → Members
  | [], name, value => [(name, value)]
  | (n, v) :: rest, name, value =>
    if n = name then (n, value) :: rest else (n, v) :: Members.put rest name value

/-- Members as written, where a name may come more than once: the last value counts. -/
def Members.ofWritten (written : List (String × Json)) : Members :=
  written.foldl (fun members (name, value) => Members.put members name value) []

/-- The member of an object; `none` for any other value. -/
def get? (j : Json) (name : String) : Option Json :=
  match j with
  | obj members => Members.get? members name
  | _ => none

end Json

end MiniAlgol
