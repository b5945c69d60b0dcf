import MiniAlgol.Text.Blank
import MiniAlgol.Text.DecimalDigit
import MiniAlgol.Text.Quoted

/-!
Integer numerals, read and written.

A numeral is decimal, in the digits of any script, with an optional sign, single underscores
between digits and blanks around it. Integers are unbounded, but no numeral of more than
`maxDigits` digits is read, and no integer that needs more is written.
-/

namespace MiniAlgol

/-- Why a numeral cannot be read, or a number cannot be written. -/
inductive NumeralError where
  | notInteger (text : String)
  | notReal (text : String)
  /-- An integer numeral with this many digits is not read. -/
  | tooManyDigits (count : Nat)
  | tooLongToWrite
  deriving DecidableEq, Repr

namespace Numeral

/-- The most digits an integer numeral may have. -/
def maxDigits : Nat := 4300

/-- The least magnitude that needs more than `maxDigits` digits. It is a large number, which no
proof should compute. -/
@[irreducible] def writeBound : Nat := Nat.pow 10 maxDigits

/-- The value of a digit sequence, most significant first. -/
def ofDigits (digits : List Nat) : Nat :=
  digits.foldl (fun n d => 10 * n + d) 0

/-- Whether every underscore stands between two digits. The flag says whether a digit came just
before. -/
def underscoresFit : Bool → List Char → Bool
  | afterDigit, [] => afterDigit
  | afterDigit, c :: cs => if c = '_' then afterDigit && underscoresFit false cs
      else underscoresFit true cs

/-- A digit, or the underscore that may separate digits. -/
def isDigitOrUnderscore (c : Char) : Bool :=
  c == '_' || Text.isDecimalDigit c

/-- Splits an optional sign off; the flag is set for a minus sign. -/
def splitSign : List Char → Bool × List Char
  | '-' :: cs => (true, cs)
  | '+' :: cs => (false, cs)
  | cs => (false, cs)

/-- The integer with this magnitude, negated when the flag is set. -/
def signed (negative : Bool) (n : Nat) : Int :=
  if negative then -(n : Int) else n

/-- Reads an integer numeral. The digits must be well separated, then not too many, and then
nothing but blanks may follow: of several faults the first in this order is reported. -/
def readInteger (text : String) : Except NumeralError Int :=
  let (negative, body) := splitSign (text.toList.dropWhile Text.isBlank)
  let run := body.takeWhile isDigitOrUnderscore
  let digits := run.filterMap Text.decimalDigit?
  if !underscoresFit false run then .error (.notInteger text)
  else if maxDigits < digits.length then .error (.tooManyDigits digits.length)
  else if (body.dropWhile isDigitOrUnderscore).all Text.isBlank then
    .ok (signed negative (ofDigits digits))
  else .error (.notInteger text)

/-- The decimal form of an integer, whatever its length. -/
def decimal (n : Int) : String :=
  if n < 0 then "-" ++ Nat.repr n.natAbs else Nat.repr n.natAbs

/-- Writes an integer, if its magnitude has at most `maxDigits` digits. -/
def writeInteger (n : Int) : Except NumeralError String :=
  if n.natAbs < writeBound then .ok (decimal n) else .error .tooLongToWrite

end Numeral

namespace NumeralError

/-- The wording of the limit on digits, without its end. -/
def limitText : String :=
  "Exceeds the limit (" ++ Nat.repr Numeral.maxDigits ++ " digits) for integer string conversion"

/-- The advice that ends the wording of the limit. -/
def limitAdvice : String :=
  "; use sys.set_int_max_str_digits() to increase the limit"

/-- What is said about the error. A long offending integer text is cut at 200 characters. -/
def message : NumeralError → String
  | notInteger text =>
      "invalid literal for int() with base 10: "
        ++ String.ofList ((Text.quoteChars text.toList).take 200)
  | notReal text => "could not convert string to float: " ++ Text.quote text
  | tooManyDigits count =>
      limitText ++ ": value has " ++ Nat.repr count ++ " digits" ++ limitAdvice
  | tooLongToWrite => limitText ++ limitAdvice

end NumeralError

end MiniAlgol
