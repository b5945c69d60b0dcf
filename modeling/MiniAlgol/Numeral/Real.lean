import MiniAlgol.Numeral.Integer
import MiniAlgol.Numeral.Shortest

/-!
Real numerals, read and written.

A numeral has a mantissa with or without a point and an optional exponent, or is one of the words
for infinity and for no number; a number too large for a double reads as infinity. A double is
written with the fewest digits that read back, by position while its decimal exponent lies between
`leastPositional` and `pastPositional` and with an exponent otherwise. What is written always
looks like a real: it has a point, an exponent or a word.
-/

namespace MiniAlgol.Numeral

/-! ### Writing -/

/-- The least decimal exponent that is written by position. -/
def leastPositional : Int := -4

/-- The least decimal exponent, above `leastPositional`, that is written out. -/
def pastPositional : Int := 16

/-- The digits of a number without the zeros at its end. -/
def significantDigits (n : Nat) : List Char :=
  ((Nat.toDigits 10 n).reverse.dropWhile (· == '0')).reverse

/-- An exponent: its sign, and at least two digits. -/
def exponentText (e : Int) : List Char :=
  let digits := Nat.toDigits 10 e.natAbs
  'e' :: (if e < 0 then '-' else '+') :: List.replicate (2 - digits.length) '0' ++ digits

/-- Digits laid out with the point after the first `point` of them, which may lie outside them. -/
def positional (digits : List Char) (point : Int) : List Char :=
  if point ≤ 0 then '0' :: '.' :: List.replicate (-point).toNat '0' ++ digits
  else if digits.length ≤ point.toNat then
    digits ++ List.replicate (point.toNat - digits.length) '0' ++ ['.', '0']
  else digits.take point.toNat ++ '.' :: digits.drop point.toNat

/-- Digits laid out as one digit, the others after a point, and the exponent. -/
def scientific (digits : List Char) (exponent : Int) : List Char :=
  match digits with
  | [] => exponentText exponent
  | [d] => d :: exponentText exponent
  | d :: ds => d :: '.' :: ds ++ exponentText exponent

def Decimal.text (d : Decimal) : List Char :=
  let exponent := (Nat.toDigits 10 d.digits).length + d.exponent - 1
  let digits := significantDigits d.digits
  if leastPositional ≤ exponent ∧ exponent < pastPositional then positional digits (exponent + 1)
  else scientific digits exponent

/-- The text of the double with these bits. -/
def bitsText (bits : Nat) : List Char :=
  let magnitude := bits % 0x8000000000000000
  let sign := if bits < 0x8000000000000000 then [] else ['-']
  if magnitude = 0 then sign ++ ['0', '.', '0']
  else if magnitude < 0x7ff0000000000000 then sign ++ (shortest (Binary.ofBits magnitude)).text
  else if magnitude = 0x7ff0000000000000 then sign ++ ['i', 'n', 'f']
  else ['n', 'a', 'n']

def writeReal (x : Float) : String :=
  String.ofList (bitsText x.toBits.toNat)

/-- Writes a double without the `.0` of a whole number. -/
def writeRealShort (x : Float) : String :=
  let cs := bitsText x.toBits.toNat
  match cs.reverse with
  | '0' :: '.' :: rest => String.ofList rest.reverse
  | _ => String.ofList cs

/-! ### Reading -/

def infinity : Float := Float.ofBits 0x7ff0000000000000

def notANumber : Float := Float.ofBits 0x7ff8000000000000

/-- The double nearest to `digits * 10 ^ exponent`, ties to even. Exponents far outside the range
of doubles are settled first, by the count of significant digits. -/
def nearestReal (digits : List Nat) (exponent : Int) : Float :=
  let significant := digits.dropWhile (· == 0)
  let magnitude := significant.length + exponent
  if significant.isEmpty || magnitude < -323 then Float.ofBits 0
  else if 310 < magnitude then infinity
  else Float.ofScientific (ofDigits significant) (exponent < 0) exponent.natAbs

/-- Whether underscores stand between digits only; the flag says whether a digit came just
before. -/
def underscoresBetweenDigits : Bool → List Char → Bool
  | _, [] => true
  | afterDigit, '_' :: cs =>
    match cs with
    | [] => false
    | c :: _ => afterDigit && Text.isDecimalDigit c && underscoresBetweenDigits false cs
  | _, c :: cs => underscoresBetweenDigits (Text.isDecimalDigit c) cs

def splitDigits (cs : List Char) : List Nat × List Char :=
  ((cs.takeWhile Text.isDecimalDigit).filterMap Text.decimalDigit?,
    cs.dropWhile Text.isDecimalDigit)

/-- Splits the point and the digits after it off the front. -/
def splitFraction : List Char → List Nat × List Char
  | '.' :: cs => splitDigits cs
  | cs => ([], cs)

/-- Reads what follows the mantissa: nothing, or an exponent. -/
def readExponent : List Char → Option Int
  | [] => some 0
  | c :: cs =>
    if c = 'e' ∨ c = 'E' then
      let (negative, body) := splitSign cs
      let (digits, rest) := splitDigits body
      if digits.isEmpty || !rest.isEmpty then none else some (signed negative (ofDigits digits))
    else none

def wordReal? (cs : List Char) : Option Float :=
  let word := String.ofList (cs.map Char.toLower)
  if word = "inf" ∨ word = "infinity" then some infinity
  else if word = "nan" then some notANumber
  else none

/-- Reads an unsigned real numeral without underscores. -/
def readMagnitude (cs : List Char) : Option Float :=
  match wordReal? cs with
  | some x => some x
  | none =>
    let (whole, afterWhole) := splitDigits cs
    let (fraction, afterFraction) := splitFraction afterWhole
    if whole.isEmpty && fraction.isEmpty then none
    else (readExponent afterFraction).map fun e =>
      nearestReal (whole ++ fraction) (e - fraction.length)

def readReal (text : String) : Except NumeralError Float :=
  let cs := Text.trimBlanks text.toList
  let (negative, body) := splitSign (cs.filter (· != '_'))
  match if underscoresBetweenDigits false cs then readMagnitude body else none with
  | some x => .ok (if negative then -x else x)
  | none => .error (.notReal text)

/-- The least magnitude of an integer that is too large for a double: half a unit beyond the
greatest double. -/
def realBound : Nat := Nat.pow 2 1024 - Nat.pow 2 970

/-- The double nearest to an integer, ties to even; `none` when it is too large. -/
def realOfInteger? (n : Int) : Option Float :=
  if n.natAbs < realBound then some (Float.ofInt n) else none

/-- The integer part of a double, which drops the fraction of either sign; `none` for infinity and
for what is no number. -/
def integerPart? (x : Float) : Option Int :=
  let bits := x.toBits.toNat
  let magnitude := bits % 0x8000000000000000
  if magnitude < 0x7ff0000000000000 then
    let value := (Binary.ofBits magnitude).value
    some (signed (0x8000000000000000 ≤ bits) (value.num / value.den))
  else none

/-- The integer that a double is; `none` for one with a fraction and for one that is not finite. -/
def whole? (x : Float) : Option Int :=
  let value := (Binary.ofBits (x.toBits.toNat % 0x8000000000000000)).value
  if value.num % value.den = 0 then integerPart? x else none

end MiniAlgol.Numeral
