import MiniAlgol.Json.Basic
import MiniAlgol.Numeral.Real
import MiniAlgol.Text.Quoted

/-!
JSON values in messages: how a value that was not expected is shown, and the word for its type.
-/

namespace MiniAlgol.Json

/-- The word for the type of a value in messages. -/
def typeWord : Json → String
  | null => "NoneType"
  | bool _ => "bool"
  | int _ => "int"
  | real _ => "float"
  | str _ => "str"
  | arr _ => "list"
  | obj _ => "dict"

mutual

/-- A value inside another one: strings are quoted. -/
def listing : Json → String
  | null => "None"
  | bool b => if b then "True" else "False"
  | int n => Numeral.decimal n
  | real x => Numeral.writeReal x
  | str s => Text.quote s
  | arr items => "[" ++ ", ".intercalate (listings items) ++ "]"
  | obj members => "\x7b" ++ ", ".intercalate (memberListings members) ++ "\x7d"

def listings : List Json → List String
  | [] => []
  | item :: items => listing item :: listings items

def memberListings : List (String × Json) → List String
  | [] => []
  | (name, value) :: members =>
    (Text.quote name ++ ": " ++ listing value) :: memberListings members

end

/-- A value on its own: a string is shown as it is. -/
def shown : Json → String
  | str s => s
  | j => listing j

end MiniAlgol.Json
