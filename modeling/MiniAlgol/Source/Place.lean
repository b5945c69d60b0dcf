import MiniAlgol.Source.Token
import MiniAlgol.Text.Quoted

/-!
Places in a source text, and what is wrong there.
-/

namespace MiniAlgol.Source

/-- A line and a column, both counted from one. Only a newline starts a line. -/
structure Place where
  line : Nat
  column : Nat
  deriving DecidableEq, Repr, Inhabited

def Place.after (before : List Char) : Place where
  line := before.count '\n' + 1
  column := (before.reverse.takeWhile (· != '\n')).length + 1

/-- The place in `source` where its ending `rest` starts. -/
def Place.ofRest (source rest : List Char) : Place :=
  Place.after (source.take (source.length - rest.length))

/-- Why a source text is no program. -/
inductive SyntaxError where
  /-- A token stands where the grammar has no use for it. -/
  | unexpectedToken (token : Token) (place : Place)
  /-- The text ends too early. The place is that of its last token. -/
  | unexpectedEnd (place : Place)
  | unexpectedCharacter (c : Char) (place : Place)
  /-- The program is well formed but an array extent in it has too many digits. -/
  | extentTooLong (digits : Nat)
  deriving DecidableEq, Repr

namespace SyntaxError

/-- The name of the end of the text among the terminals. -/
def endName : String := "$END"

def tokenSummary (name text : String) (place : Place) : String :=
  "Unexpected token Token(" ++ Text.quote name ++ ", " ++ Text.quote text ++ ") at line "
    ++ Nat.repr place.line ++ ", column " ++ Nat.repr place.column ++ "."

def summary : SyntaxError → String
  | unexpectedToken token place => tokenSummary token.terminal.name (String.ofList token.text) place
  | unexpectedEnd place => tokenSummary endName "" place
  | unexpectedCharacter c place =>
    "No terminal matches '" ++ c.toString ++ "' in the current parser context, at line "
      ++ Nat.repr place.line ++ " col " ++ Nat.repr place.column
  | extentTooLong _ => "Error trying to process rule \"array_decl\":"

end SyntaxError

end MiniAlgol.Source
