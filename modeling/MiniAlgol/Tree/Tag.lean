/-!
Type tags: the four types that a declaration can name.
-/

namespace MiniAlgol

/-- A declared type. It is checked once, against the initial value, and not kept with a variable. -/
inductive Tag where
  | int
  | double
  | str
  | bool
  deriving DecidableEq, Repr, Inhabited

namespace Tag

/-- Every tag, in the order in which tags are listed. -/
def all : List Tag := [int, double, str, bool]

/-- The word for the tag in a program. -/
def name : Tag → String
  | int => "int"
  | double => "double"
  | str => "str"
  | bool => "bool"

def ofName? (s : String) : Option Tag :=
  all.find? fun tag => tag.name == s

/-- What is said about a word that names no tag. -/
def unknownMessage (shown : String) : String :=
  "Unknown type tag: " ++ shown

theorem ofName?_name (tag : Tag) : ofName? tag.name = some tag := by
  cases tag <;> decide

end Tag

end MiniAlgol
