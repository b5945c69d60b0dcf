import MiniAlgol.Numeral.Integer
import MiniAlgol.Tree.Node

/-!
Values, and the heap of arrays.

An array is shared: a value holds only its address, and its elements are in the heap. Routines and
builtins carry an identity, by which they are compared.
-/

namespace MiniAlgol

/-- A routine that a program declared. -/
structure Routine where
  name : Label
  params : List Label
  body : List Node
  /-- What kind of routine it is called in messages. -/
  kind : String
  deriving Inhabited

/-- A routine that every program has. There is one, which prints its arguments. -/
structure Builtin where
  name : String
  /-- How many arguments it takes; any number when there is none. -/
  arity : Option Int
  deriving DecidableEq, Repr, Inhabited

/-- A value of a variable or an expression. -/
inductive Value where
  | undefined
  | int (n : Int)
  | real (x : Float)
  | text (s : String)
  | bool (b : Bool)
  /-- A list, which only a literal of a tree from outside can give. -/
  | list (items : List Json)
  | array (address : Nat)
  | routine (id : Nat) (r : Routine)
  | builtin (id : Nat) (b : Builtin)
  deriving Inhabited

/-- An array in the heap. Element type, row count and column count never change. -/
inductive ArrayObject where
  | line (elem : Tag) (items : Array Value)
  /-- An array with two extents. A negative extent is kept, though nothing is stored for it. -/
  | grid (elem : Tag) (rows cols : Int) (cells : Array (Array Value))
  deriving Inhabited

abbrev Heap := Array ArrayObject

namespace ArrayObject

def elem : ArrayObject → Tag
  | line elem _ => elem
  | grid elem .. => elem

/-- The extents. An array with one extent counts as a single column. -/
def extents : ArrayObject → Int × Int
  | line _ items => (items.size, 1)
  | grid _ rows cols _ => (rows, cols)

/-- How many elements the array is declared to hold. -/
def capacity (a : ArrayObject) : Int :=
  a.extents.1 * a.extents.2

end ArrayObject

namespace Value

/-- Whether the value is an integer; a truth value is none. -/
def isInteger : Value → Bool
  | int _ => true
  | _ => false

def isReal : Value → Bool
  | real _ => true
  | _ => false

def isNumeric (v : Value) : Bool :=
  v.isInteger || v.isReal

/-- Whether a declaration with this type admits the value. There is no conversion between types. -/
def hasTag : Value → Tag → Bool
  | int _, .int => true
  | real _, .double => true
  | text _, .str => true
  | bool _, .bool => true
  | _, _ => false

/-- Equality in the language: same variant and same content, where arrays, routines and builtins
are equal only to themselves. -/
def equal : Value → Value → Bool
  | undefined, undefined => true
  | int a, int b => a == b
  | real a, real b => a == b
  | text a, text b => a == b
  | bool a, bool b => a == b
  | list a, list b => Json.sameItems a b
  | array a, array b => a == b
  | routine a _, routine b _ => a == b
  | builtin a _, builtin b _ => a == b
  | _, _ => false

/-- The kind of routine as the name of a type. -/
def routineTypeName (kind : String) : String :=
  if kind = "builtin" ∨ kind = "function" ∨ kind = "procedure" then kind else "FunctionValue"

/-- What is said about a value that a type does not admit. -/
def mismatchText (tag : Tag) (actual : String) : String :=
  "expected " ++ tag.name ++ ", got " ++ actual

end Value

end MiniAlgol
