import MiniAlgol.Json.Listing

/-!
JSON values as numbers: the number that a value is, and the number that it is converted to.

A truth value counts as 0 or 1 everywhere. Only a conversion reads text.
-/

namespace MiniAlgol.Json

/-- A number by its size, however it is written. -/
inductive Number where
  | whole (n : Int)
  /-- A real with a fraction, or one that is not finite. -/
  | other (x : Float)
  deriving DecidableEq

/-- The integer that a truth value counts as. -/
def integerOfBool (b : Bool) : Int :=
  if b then 1 else 0

def number? : Json → Option Number
  | bool b => some (.whole (integerOfBool b))
  | int n => some (.whole n)
  | real x =>
    match Numeral.whole? x with
    | some n => some (.whole n)
    | none => some (.other x)
  | _ => none

/-- Why a value is not converted to a number. -/
inductive ConversionError where
  | numeral (error : NumeralError)
  | notFinite (x : Float)
  | tooLarge
  /-- Neither a number nor text, where an integer is wanted. -/
  | notInteger (typeWord : String)
  /-- Neither a number nor text, where a real is wanted. -/
  | notReal (typeWord : String)

namespace ConversionError

def message : ConversionError → String
  | numeral error => error.message
  | notFinite x =>
    "cannot convert float " ++ (if x.isNaN then "NaN" else "infinity") ++ " to integer"
  | tooLarge => "int too large to convert to float"
  | notInteger typeWord =>
    "int() argument must be a string, a bytes-like object or a real number, not '"
      ++ typeWord ++ "'"
  | notReal typeWord =>
    "float() argument must be a string or a real number, not '" ++ typeWord ++ "'"

end ConversionError

/-- A value as an integer: a real loses its fraction, and text must be a numeral. -/
def toInteger : Json → Except ConversionError Int
  | bool b => .ok (integerOfBool b)
  | int n => .ok n
  | real x =>
    match Numeral.integerPart? x with
    | some n => .ok n
    | none => .error (.notFinite x)
  | str s => (Numeral.readInteger s).mapError .numeral
  | j => .error (.notInteger j.typeWord)

/-- A value as a real: an integer becomes the nearest double, and text must be a numeral. -/
def toReal : Json → Except ConversionError Float
  | bool b => .ok (if b then 1 else 0)
  | int n =>
    match Numeral.realOfInteger? n with
    | some x => .ok x
    | none => .error .tooLarge
  | real x => .ok x
  | str s => (Numeral.readReal s).mapError .numeral
  | j => .error (.notReal j.typeWord)

end MiniAlgol.Json
