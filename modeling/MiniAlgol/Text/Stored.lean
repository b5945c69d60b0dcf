/-!
Text in files: encoded in UTF-8, with any of the three line endings.
-/

namespace MiniAlgol.Text

/-- Every line ending as a single newline. -/
def unifyNewlines : List Char → List Char
  | '\r' :: '\n' :: cs => '\n' :: unifyNewlines cs
  | '\r' :: cs => '\n' :: unifyNewlines cs
  | c :: cs => c :: unifyNewlines cs
  | [] => []

/-- The text that bytes hold; `none` when they are not UTF-8. -/
def decode (bytes : ByteArray) : Option String :=
  (String.fromUTF8? bytes).map fun s => String.ofList (unifyNewlines s.toList)

def encode (s : String) : ByteArray :=
  s.toUTF8

end MiniAlgol.Text
