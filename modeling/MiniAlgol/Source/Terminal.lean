import MiniAlgol.Text.DecimalDigit
import MiniAlgol.Tree.Tag

/-!
Terminals: the kinds of word and sign that a source text is made of, and how much text each of
them takes.
-/

namespace MiniAlgol

/-- The reserved words. Each is reserved only where the grammar can use it. -/
inductive Keyword where
  | array
  | begin
  | bool
  | do
  | double
  | else
  | end
  | false
  | function
  | if
  | int
  | procedure
  | return
  | str
  | then
  | true
  | while
  deriving DecidableEq, Repr, Inhabited

namespace Keyword

def all : List Keyword :=
  [.array, .begin, .bool, .do, .double, .else, .end, .false, .function, .if, .int, .procedure,
   .return, .str, .then, .true, .while]

def text : Keyword → String
  | .array => "array"
  | .begin => "begin"
  | .bool => "bool"
  | .do => "do"
  | .double => "double"
  | .else => "else"
  | .end => "end"
  | .false => "false"
  | .function => "function"
  | .if => "if"
  | .int => "int"
  | .procedure => "procedure"
  | .return => "return"
  | .str => "str"
  | .then => "then"
  | .true => "true"
  | .while => "while"

def ofText? (cs : List Char) : Option Keyword :=
  all.find? fun k => k.text.toList == cs

def tag? : Keyword → Option Tag
  | .int => some .int
  | .double => some .double
  | .str => some .str
  | .bool => some .bool
  | _ => none

end Keyword

/-- A kind of word or sign. -/
inductive Terminal where
  | ident
  | compareOp
  /-- Plus or minus. -/
  | addOp
  /-- Times or divided by. -/
  | mulOp
  /-- Digits with a point among them. -/
  | realLit
  /-- Digits. -/
  | intLit
  | stringLit
  | becomes
  | equal
  | semicolon
  | comma
  | colon
  | leftSquare
  | rightSquare
  | leftParen
  | rightParen
  | keyword (k : Keyword)
  deriving DecidableEq, Repr, Inhabited

namespace Terminal

/-- The name of the terminal in reports of syntax errors. -/
def name : Terminal → String
  | ident => "IDENT"
  | compareOp => "COMPARE_OP"
  | addOp => "ADD_OP"
  | mulOp => "MUL_OP"
  | realLit => "REAL_LIT"
  | intLit => "INT_LIT"
  | stringLit => "STRING_LIT"
  | becomes => "__ANON_0"
  | equal => "EQUAL"
  | semicolon => "SEMICOLON"
  | comma => "COMMA"
  | colon => "COLON"
  | leftSquare => "LSQB"
  | rightSquare => "RSQB"
  | leftParen => "LPAR"
  | rightParen => "RPAR"
  | keyword k => k.text.toUpper

/-- Every terminal. Of two that can take the same text the earlier one is preferred: a real before
an integer, a sign of two characters before its first character. -/
def all : List Terminal :=
  [realLit, intLit, stringLit, ident, becomes, compareOp, addOp, mulOp, equal, semicolon, comma,
   colon, leftSquare, rightSquare, leftParen, rightParen] ++ Keyword.all.map keyword

/-! ### How much text a terminal takes -/

def isNameStart (c : Char) : Bool :=
  c.isAlpha || c == '_'

def isNameChar (c : Char) : Bool :=
  c.isAlphanum || c == '_'

/-- The length of the name at the front. -/
def nameWidth : List Char → Option Nat
  | [] => none
  | c :: cs => if isNameStart c then some ((cs.takeWhile isNameChar).length + 1) else none

/-- The length of the digits at the front. -/
def digitsWidth (cs : List Char) : Option Nat :=
  match (cs.takeWhile Text.isDecimalDigit).length with
  | 0 => none
  | n => some n

/-- The length of the real at the front: digits, a point, digits. -/
def realWidth (cs : List Char) : Option Nat :=
  match digitsWidth cs with
  | none => none
  | some whole =>
    match cs.drop whole with
    | '.' :: rest => (digitsWidth rest).map fun fraction => whole + 1 + fraction
    | _ => none

/-- The length of the quoted text at the front, if it is closed. -/
def stringWidth : List Char → Option Nat
  | '"' :: cs =>
    let inner := cs.takeWhile (· != '"')
    if inner.length < cs.length then some (inner.length + 2) else none
  | _ => none

/-- The length of a fixed text, if it stands at the front. -/
def fixedWidth (text cs : List Char) : Option Nat :=
  if text.isPrefixOf cs then some text.length else none

/-- The length of the first of some fixed texts that stands at the front. -/
def firstFixedWidth (texts : List (List Char)) (cs : List Char) : Option Nat :=
  texts.findSome? fun text => fixedWidth text cs

/-- The comparison signs, those of two characters first. -/
def comparisons : List (List Char) :=
  [['<', '='], ['>', '='], ['=', '='], ['!', '='], ['<'], ['>']]

/-- How many characters at the front of the text the terminal takes. -/
def width : Terminal → List Char → Option Nat
  | ident, cs => nameWidth cs
  | compareOp, cs => firstFixedWidth comparisons cs
  | addOp, cs => firstFixedWidth [['+'], ['-']] cs
  | mulOp, cs => firstFixedWidth [['*'], ['/']] cs
  | realLit, cs => realWidth cs
  | intLit, cs => digitsWidth cs
  | stringLit, cs => stringWidth cs
  | becomes, cs => fixedWidth [':', '='] cs
  | equal, cs => fixedWidth ['='] cs
  | semicolon, cs => fixedWidth [';'] cs
  | comma, cs => fixedWidth [','] cs
  | colon, cs => fixedWidth [':'] cs
  | leftSquare, cs => fixedWidth ['['] cs
  | rightSquare, cs => fixedWidth [']'] cs
  | leftParen, cs => fixedWidth ['('] cs
  | rightParen, cs => fixedWidth [')'] cs
  | keyword k, cs => fixedWidth k.text.toList cs

/-! ### Every match takes something -/

theorem digitsWidth_pos {cs : List Char} {n : Nat} (h : digitsWidth cs = some n) : 0 < n := by
  unfold digitsWidth at h
  split at h <;> grind

theorem fixedWidth_eq {text cs : List Char} {n : Nat} (h : fixedWidth text cs = some n) :
    n = text.length := by
  grind [fixedWidth]

theorem firstFixedWidth_pos {texts : List (List Char)} {cs : List Char} {n : Nat}
    (nonempty : ∀ text ∈ texts, 0 < text.length) (h : firstFixedWidth texts cs = some n) :
    0 < n := by
  obtain ⟨text, mem, hit⟩ := List.exists_of_findSome?_eq_some h
  exact fixedWidth_eq hit ▸ nonempty text mem

theorem width_pos {t : Terminal} {cs : List Char} {n : Nat} (h : t.width cs = some n) :
    0 < n := by
  cases t with
  | ident => cases cs <;> grind [width, nameWidth]
  | compareOp => exact firstFixedWidth_pos (by decide) h
  | addOp => exact firstFixedWidth_pos (by decide) h
  | mulOp => exact firstFixedWidth_pos (by decide) h
  | realLit =>
    simp only [width, realWidth] at h
    split at h
    · simp at h
    · split at h
      · obtain ⟨_, _, rfl⟩ := Option.map_eq_some_iff.1 h
        omega
      · simp at h
  | intLit => exact digitsWidth_pos h
  | stringLit =>
    simp only [width, stringWidth] at h
    split at h <;> grind
  | keyword k => cases k <;> exact fixedWidth_eq h ▸ by decide
  | _ => exact fixedWidth_eq h ▸ by decide

end Terminal

end MiniAlgol
