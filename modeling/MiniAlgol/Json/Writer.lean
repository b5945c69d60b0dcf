import MiniAlgol.Json.Basic
import MiniAlgol.Numeral.Real
import MiniAlgol.Text.Quoted

/-!
Writing JSON text, on one line or indented by two spaces a level.

Strings keep every character but the quotation mark, the backslash and the ASCII controls.
-/

namespace MiniAlgol.Json

def escapeChar (c : Char) : List Char :=
  if c = '"' then ['\\', '"']
  else if c = '\\' then ['\\', '\\']
  else if c = '\n' then ['\\', 'n']
  else if c = '\r' then ['\\', 'r']
  else if c = '\t' then ['\\', 't']
  else if c = '\x0c' then ['\\', 'f']
  else if c = '\x08' then ['\\', 'b']
  else if c.toNat < 0x20 then '\\' :: 'u' :: Text.hexDigits 4 c.toNat
  else [c]

def writeString (s : String) : List Char :=
  '"' :: s.toList.flatMap escapeChar ++ ['"']

def writeReal (x : Float) : List Char :=
  match (Numeral.writeReal x).toList with
  | ['n', 'a', 'n'] => "NaN".toList
  | ['i', 'n', 'f'] => "Infinity".toList
  | ['-', 'i', 'n', 'f'] => "-Infinity".toList
  | cs => cs

/-- A line break and the indentation of a level. -/
def lineBreak (level : Nat) : List Char :=
  '\n' :: List.replicate (2 * level) ' '

mutual

def prettyChars (level : Nat) : Json → List Char
  | .null => "null".toList
  | .bool b => if b then "true".toList else "false".toList
  | .int n => (Numeral.decimal n).toList
  | .real x => writeReal x
  | .str s => writeString s
  | .arr [] => ['[', ']']
  | .arr (item :: items) =>
    '[' :: lineBreak (level + 1) ++ prettyChars (level + 1) item
      ++ prettyItems (level + 1) items ++ lineBreak level ++ [']']
  | .obj [] => ['{', '}']
  | .obj ((name, value) :: members) =>
    '{' :: lineBreak (level + 1) ++ writeString name ++ ':' :: ' ' :: prettyChars (level + 1) value
      ++ prettyMembers (level + 1) members ++ lineBreak level ++ ['}']

def prettyItems (level : Nat) : List Json → List Char
  | [] => []
  | item :: items =>
    ',' :: lineBreak level ++ prettyChars level item ++ prettyItems level items

def prettyMembers (level : Nat) : List (String × Json) → List Char
  | [] => []
  | (name, value) :: members =>
    ',' :: lineBreak level ++ writeString name ++ ':' :: ' ' :: prettyChars level value
      ++ prettyMembers level members

end

def pretty (j : Json) : String :=
  String.ofList (prettyChars 0 j)

mutual

/-- Puts the one-line text of a value behind a text. -/
def compactOnto (text : String) : Json → String
  | .null => text ++ "null"
  | .bool b => text ++ if b then "true" else "false"
  | .int n => text ++ Numeral.decimal n
  | .real x => text ++ String.ofList (writeReal x)
  | .str s => text ++ String.ofList (writeString s)
  | .arr items => compactItemsOnto (text.push '[') true items |>.push ']'
  | .obj members => compactMembersOnto (text.push '{') true members |>.push '}'

/-- Puts items behind a text; the flag says whether the first of all comes next. -/
def compactItemsOnto (text : String) (first : Bool) : List Json → String
  | [] => text
  | item :: items =>
    compactItemsOnto (compactOnto (if first then text else text.push ',') item) false items

/-- Puts members behind a text; the flag says whether the first of all comes next. -/
def compactMembersOnto (text : String) (first : Bool) : List (String × Json) → String
  | [] => text
  | (name, value) :: members =>
    let text := (if first then text else text.push ',') ++ String.ofList (writeString name)
    compactMembersOnto (compactOnto (text.push ':') value) false members

end

/-- The text of a value on one line. -/
def compact (j : Json) : String :=
  compactOnto "" j

end MiniAlgol.Json
