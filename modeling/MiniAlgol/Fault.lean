import MiniAlgol.Value.Basic

/-!
Faults: what can stop a running program.

Most faults are errors of the language, with a kind of their own, a message and the names and
values involved. The others come from limits of numerals and from trees that no source text
gives. A fault holds its cause; names of types and texts of values are those at the time it arose.
-/

namespace MiniAlgol

/-- The kinds of error in the language. -/
inductive ErrorKind where
  | undefinedVariable
  | typeMismatch
  | unsupportedOperands
  | divisionByZero
  | indexOutOfBounds
  | arraySizeExceeded
  | notCallable
  | arityMismatch
  | notABoolean
  deriving DecidableEq, Repr

def ErrorKind.name : ErrorKind → String
  | undefinedVariable => "UndefinedVariable"
  | typeMismatch => "TypeMismatch"
  | unsupportedOperands => "UnsupportedOperands"
  | divisionByZero => "DivisionByZero"
  | indexOutOfBounds => "IndexOutOfBounds"
  | arraySizeExceeded => "ArraySizeExceeded"
  | notCallable => "NotCallable"
  | arityMismatch => "ArityMismatch"
  | notABoolean => "NotABoolean"

/-- A report of an error of the language on one line. -/
def reportText (kind message : String) : String :=
  kind ++ ": " ++ message

/-- A report of an error of the language as a record. -/
def reportRecord (kind message : String) : String :=
  "Error(kind=" ++ Text.quote kind ++ ", message=" ++ Text.quote message ++ ")"

/-- Something involved in an error. -/
inductive Detail where
  | text (s : String)
  | label (l : Label)
  | int (n : Int)
  | value (v : Value)
  | ints (ns : List Int)

/-- What stopped a program. -/
inductive Fault where
  | undefinedVariable (name : Label)
  /-- An initial value of another type than the variable; `shown` is its text. -/
  | initialMismatch (name : Label) (expected : Tag) (actual shown : String)
  | elementMismatch (name : Label) (index : Int) (expected : Tag) (actual : String)
  | indexMismatch (name : Label) (index : Value) (actual : String)
  | unsupported (op left right : String)
  /-- An integer operand beyond the doubles, beside a real. -/
  | tooLargeForReal (op left right : String)
  | unknownOperator (op : Label)
  | notArray (name : Label) (actual : String)
  /-- A division by zero of `left`, whose text is `shown`. -/
  | divisionByZero (op shown : String) (left : Value)
  /-- Indices outside the extents; `shown` is their text. -/
  | indexOutOfBounds (name : Label) (indices : List Int) (shown : String) (rows cols : Int)
  | sizeExceeded (name : Label) (capacity : Int) (count : Int)
  | notDeclared (name : Label)
  | notCallable (name : Label) (actual : String)
  /-- A call of `routine` with a wrong number of arguments. -/
  | arity (routine : String) (name : Label) (expected : Int) (actual : Nat)
  /-- A condition that is no truth value; `shown` is its text. -/
  | notBoolean (construct actual shown : String) (value : Value)
  | numeral (error : NumeralError)
  /-- The text of an array that holds itself. -/
  | endlessText
  | notStatement (kind : Option String)
  | notExpression (kind : Option String)
  | unknownLiteral (kind : Label)
  /-- The text of a literal that is not converted to its number. -/
  | literal (error : Json.ConversionError)
  /-- The text of a literal that has no ends to take off. -/
  | noInnerText (text : Label)
  /-- A list or an object in place of a name. -/
  | notName (typeWord : String)
  /-- A parameter, at this place of its list, that is no word, where words are needed. -/
  | notWord (index : Nat) (typeWord : String)
  /-- An element that is not there to be read. -/
  | noElement
  /-- An element that is not there to be replaced. -/
  | noElementToReplace
  /-- A position too far from zero to be an index. -/
  | indexOutOfRange
  /-- A place to fill in an array without rows. -/
  | noRows
  | zeroDivisor
  | zeroRealDivisor
  | extentCount (count : Nat)
  /-- An extent too far from zero to be a length. -/
  | extentOutOfRange
  | noBody (kind : Option String)
  /-- A tree whose body is one node and not a list of statements. -/
  | bodyNotList (kind : Option String)

namespace Fault

/-- The kind of an error of the language; `none` for every other fault. -/
def kind? : Fault → Option ErrorKind
  | undefinedVariable _ => some .undefinedVariable
  | initialMismatch .. | elementMismatch .. | indexMismatch .. => some .typeMismatch
  | unsupported .. | tooLargeForReal .. | unknownOperator _ | notArray .. =>
    some .unsupportedOperands
  | divisionByZero .. => some .divisionByZero
  | indexOutOfBounds .. => some .indexOutOfBounds
  | sizeExceeded .. => some .arraySizeExceeded
  | notDeclared _ | notCallable .. => some .notCallable
  | arity .. => some .arityMismatch
  | notBoolean .. => some .notABoolean
  | _ => none

/-- How a kind of node is named where it is not expected. -/
def className : Option String → String
  | some kind => "<class 'algol60.ast." ++ kind ++ "'>"
  | none => "<class 'NoneType'>"

def message : Fault → String
  | undefinedVariable name => "undefined variable " ++ name.shown
  | initialMismatch name expected actual shown =>
    "cannot initialize " ++ expected.name ++ " " ++ name.shown ++ " with " ++ Text.quote shown
      ++ ": " ++ Value.mismatchText expected actual
  | elementMismatch name _ expected actual =>
    "cannot store " ++ actual ++ " in " ++ expected.name ++ " array " ++ name.shown ++ ": "
      ++ Value.mismatchText expected actual
  | indexMismatch name _ actual =>
    "array index for " ++ name.shown ++ " must be int, got " ++ actual
  | unsupported op left right => "unsupported " ++ op ++ " for " ++ left ++ " and " ++ right
  | tooLargeForReal op _ _ => op ++ ": integer operand too large to combine with double"
  | unknownOperator op => "unknown operator " ++ op.shown
  | notArray name actual => name.shown ++ " is not an array (" ++ actual ++ ")"
  | divisionByZero _ shown _ => "division of " ++ shown ++ " by zero"
  | indexOutOfBounds name _ shown _ _ =>
    "index [" ++ shown ++ "] out of bounds for array " ++ name.shown
  | sizeExceeded name capacity count =>
    "array " ++ name.shown ++ " holds " ++ Numeral.decimal capacity ++ " elements, initializer has "
      ++ Numeral.decimal count
  | notDeclared name => "function or procedure " ++ name.shown ++ " is not declared"
  | notCallable name actual => name.shown ++ " is not callable (" ++ actual ++ ")"
  | arity routine _ expected actual =>
    routine ++ " expects " ++ Numeral.decimal expected ++ " arguments, got " ++ Nat.repr actual
  | notBoolean construct actual shown _ =>
    construct ++ " condition must be bool, got " ++ actual ++ " " ++ Text.quote shown
  | numeral error => error.message
  | endlessText => "maximum recursion depth exceeded"
  | notStatement kind => "execute: unexpected node type " ++ className kind
  | notExpression kind => "evaluate: unexpected node type " ++ className kind
  | unknownLiteral kind => "unknown literal type " ++ kind.shown
  | literal error => error.message
  | noInnerText (.obj _) => "unhashable type: 'slice'"
  | noInnerText text => "'" ++ text.typeWord ++ "' object is not subscriptable"
  | notName typeWord => "unhashable type: '" ++ typeWord ++ "'"
  | notWord index typeWord =>
    "sequence item " ++ Nat.repr index ++ ": expected str instance, " ++ typeWord ++ " found"
  | noElement => "list index out of range"
  | noElementToReplace => "list assignment index out of range"
  | noRows => "integer modulo by zero"
  | zeroDivisor => "integer division or modulo by zero"
  | zeroRealDivisor => "float division by zero"
  | extentCount count =>
    if count < 2 then
      "not enough values to unpack (expected 2, got " ++ Nat.repr count ++ ")"
    else "too many values to unpack (expected 2)"
  | indexOutOfRange | extentOutOfRange => "cannot fit 'int' into an index-sized integer"
  | noBody kind => "'" ++ kind.getD "NoneType" ++ "' object has no attribute 'body'"
  | bodyNotList kind => "'" ++ kind.getD "NoneType" ++ "' object is not iterable"

/-- The names and values involved, for an error of the language. -/
def details : Fault → List (String × Detail)
  | undefinedVariable name => [("name", .label name)]
  | initialMismatch name expected actual _ =>
    [("name", .label name), ("expected", .text expected.name), ("actual", .text actual)]
  | elementMismatch name index expected actual =>
    [("name", .label name), ("index", .int index), ("expected", .text expected.name),
     ("actual", .text actual)]
  | indexMismatch name index _ => [("name", .label name), ("index", .value index)]
  | unsupported op left right | tooLargeForReal op left right =>
    [("op", .text op), ("left", .text left), ("right", .text right)]
  | unknownOperator op => [("op", .label op)]
  | notArray name _ => [("name", .label name)]
  | divisionByZero op _ left => [("op", .text op), ("left", .value left)]
  | indexOutOfBounds name indices _ rows cols =>
    [("name", .label name), ("indices", .ints indices), ("extents", .ints [rows, cols])]
  | sizeExceeded name capacity count =>
    [("name", .label name), ("capacity", .int capacity), ("count", .int count)]
  | notDeclared name | notCallable name _ => [("name", .label name)]
  | arity _ name expected actual =>
    [("name", .label name), ("expected", .int expected), ("actual", .int actual)]
  | notBoolean construct _ _ value => [("construct", .text construct), ("value", .value value)]
  | _ => []

/-- The report of an error of the language on one line. -/
def report? (f : Fault) : Option String :=
  f.kind?.map fun kind => reportText kind.name f.message

end Fault

end MiniAlgol
