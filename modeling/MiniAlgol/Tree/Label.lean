import MiniAlgol.Json.Number

/-!
Labels: what a tree has for a name, for an operator, and for the text and the kind of a literal.

A parsed tree has strings there. A tree from outside may have any JSON value, and its labels are
kept as they are. Every label but a list or an object can name something, and two labels are one
name when they are equal as values.
-/

namespace MiniAlgol

/-- What stands in a tree where the grammar has a word. -/
abbrev Label := Json

instance : Coe String Label := ⟨.str⟩

/-- What a name is known by. -/
inductive Key where
  | null
  | number (n : Json.Number)
  | word (s : String)
  deriving DecidableEq

/-- The key of a label; a list or an object has none. -/
def Key.ofLabel? : Label → Option Key
  | .null => some .null
  | .str s => some (.word s)
  | label => label.number?.map .number

/-- A label that can name something, with its key. -/
structure Name where
  label : Label
  key : Key
  key_of_label : Key.ofLabel? label = some key

namespace Name

def ofLabel? (label : Label) : Option Name :=
  match h : Key.ofLabel? label with
  | some key => some ⟨label, key, h⟩
  | none => none

def ofWord (s : String) : Name :=
  ⟨s, .word s, rfl⟩

instance : Inhabited Name := ⟨ofWord ""⟩

@[simp] theorem ofLabel?_word (s : String) : ofLabel? (.str s) = some (ofWord s) := rfl

end Name

end MiniAlgol
