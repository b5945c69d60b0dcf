import MiniAlgol.Json.Basic
import MiniAlgol.Numeral.Real

/-!
Reading JSON text.

Beyond the standard the words `NaN`, `Infinity` and `-Infinity` are reals. A control character may
not stand in a string as itself, and the limit on the digits of an integer holds here too. The
reader goes from left to right and reports the first fault.
-/

namespace MiniAlgol.Json

/-- Why a text is not read. -/
inductive ReadError where
  | malformed
  | numeral (error : NumeralError)
  deriving DecidableEq, Repr

/-- The blanks between the parts of a JSON text. -/
def isLayout (c : Char) : Bool :=
  c == ' ' || c == '\t' || c == '\n' || c == '\r'

/-- Drops blanks from the front. -/
def skipLayout (cs : List Char) : List Char :=
  cs.dropWhile isLayout

/-! ### Strings -/

/-- Where the reader stands inside a string. `high` is the first half of a surrogate pair whose
second half must follow as the next escape. -/
inductive StringState where
  | between (high : Option Nat)
  | escape (high : Option Nat)
  /-- Inside a code point escape: how many digits are still to come, and the value so far. -/
  | code (high : Option Nat) (left value : Nat)

def hexValue? (c : Char) : Option Nat :=
  if '0' ≤ c ∧ c ≤ '9' then some (c.toNat - 48)
  else if 'a' ≤ c ∧ c ≤ 'f' then some (c.toNat - 87)
  else if 'A' ≤ c ∧ c ≤ 'F' then some (c.toNat - 55)
  else none

def simpleEscape? (c : Char) : Option Char :=
  match c with
  | '"' => some '"'
  | '\\' => some '\\'
  | '/' => some '/'
  | 'b' => some '\x08'
  | 'f' => some '\x0c'
  | 'n' => some '\n'
  | 'r' => some '\r'
  | 't' => some '\t'
  | _ => none

/-- What stands for half of a surrogate pair without the other half. -/
def replacement : Char := '\ufffd'

/-- Adds the replacement of a first half that stayed alone. Characters are collected in reverse. -/
def closeHalf (high : Option Nat) (acc : List Char) : List Char :=
  if high.isSome then replacement :: acc else acc

def takeCode (high : Option Nat) (value : Nat) (acc : List Char) : StringState × List Char :=
  match high with
  | some h =>
    if 0xdc00 ≤ value ∧ value < 0xe000 then
      (.between none, Char.ofNat (0x10000 + (h - 0xd800) * 0x400 + (value - 0xdc00)) :: acc)
    else if 0xd800 ≤ value ∧ value < 0xdc00 then (.between (some value), replacement :: acc)
    else (.between none, Char.ofNat value :: replacement :: acc)
  | none =>
    if 0xd800 ≤ value ∧ value < 0xdc00 then (.between (some value), acc)
    else if 0xdc00 ≤ value ∧ value < 0xe000 then (.between none, replacement :: acc)
    else (.between none, Char.ofNat value :: acc)

/-- Reads the rest of a string after its opening quotation mark. -/
def readStringFrom : StringState → List Char → List Char → Except ReadError (String × List Char)
  | _, _, [] => .error .malformed
  | .between high, acc, c :: cs =>
    if c = '"' then .ok (String.ofList (closeHalf high acc).reverse, cs)
    else if c = '\\' then readStringFrom (.escape high) acc cs
    else if c.toNat < 0x20 then .error .malformed
    else readStringFrom (.between none) (c :: closeHalf high acc) cs
  | .escape high, acc, c :: cs =>
    if c = 'u' then readStringFrom (.code high 3 0) acc cs
    else match simpleEscape? c with
      | some e => readStringFrom (.between none) (e :: closeHalf high acc) cs
      | none => .error .malformed
  | .code high left value, acc, c :: cs =>
    match hexValue? c, left with
    | none, _ => .error .malformed
    | some d, 0 =>
      let (state, acc) := takeCode high (16 * value + d) acc
      readStringFrom state acc cs
    | some d, left + 1 => readStringFrom (.code high left (16 * value + d)) acc cs

/-- Reads a string after its opening quotation mark. -/
def readString (cs : List Char) : Except ReadError (String × List Char) :=
  readStringFrom (.between none) [] cs

/-! ### Numbers -/

/-- The whole part of a number: a single zero, or digits that do not start with one. -/
def splitWhole : List Char → List Char × List Char
  | '0' :: cs => (['0'], cs)
  | cs => (cs.takeWhile Char.isDigit, cs.dropWhile Char.isDigit)

/-- A point with digits after it; a point without any is left alone. -/
def splitPoint (cs : List Char) : List Char × List Char :=
  match cs with
  | '.' :: rest =>
    let digits := rest.takeWhile Char.isDigit
    if digits.isEmpty then ([], cs) else (digits, rest.dropWhile Char.isDigit)
  | _ => ([], cs)

/-- An exponent mark with digits after it; a mark without any is left alone. -/
def splitExponent (cs : List Char) : Option Int × List Char :=
  match cs with
  | [] => (none, cs)
  | c :: rest =>
    if c = 'e' ∨ c = 'E' then
      let (negative, body) := Numeral.splitSign rest
      let digits := body.takeWhile Char.isDigit
      if digits.isEmpty then (none, cs)
      else (some (Numeral.signed negative (Numeral.ofDigits (digits.filterMap Text.decimalDigit?))),
        body.dropWhile Char.isDigit)
    else (none, cs)

/-- Reads an unsigned number; the flag says whether a minus sign came before it. -/
def readMagnitude (negative : Bool) (cs : List Char) : Except ReadError (Json × List Char) :=
  let (whole, afterWhole) := splitWhole cs
  if whole.isEmpty then .error .malformed
  else
    let (fraction, afterFraction) := splitPoint afterWhole
    let (exponent, rest) := splitExponent afterFraction
    let digits := (whole ++ fraction).filterMap Text.decimalDigit?
    if fraction.isEmpty && exponent.isNone then
      if Numeral.maxDigits < digits.length then
        .error (.numeral (.tooManyDigits digits.length))
      else .ok (.int (Numeral.signed negative (Numeral.ofDigits digits)), rest)
    else
      let x := Numeral.nearestReal digits (exponent.getD 0 - fraction.length)
      .ok (.real (if negative then -x else x), rest)

def readNumber : List Char → Except ReadError (Json × List Char)
  | '-' :: cs => readMagnitude true cs
  | cs => readMagnitude false cs

/-! ### Values -/

def readWord? (cs : List Char) : Option (Json × List Char) :=
  match cs with
  | 'n' :: 'u' :: 'l' :: 'l' :: rest => some (.null, rest)
  | 't' :: 'r' :: 'u' :: 'e' :: rest => some (.bool true, rest)
  | 'f' :: 'a' :: 'l' :: 's' :: 'e' :: rest => some (.bool false, rest)
  | 'N' :: 'a' :: 'N' :: rest => some (.real Numeral.notANumber, rest)
  | 'I' :: 'n' :: 'f' :: 'i' :: 'n' :: 'i' :: 't' :: 'y' :: rest =>
    some (.real Numeral.infinity, rest)
  | '-' :: 'I' :: 'n' :: 'f' :: 'i' :: 'n' :: 'i' :: 't' :: 'y' :: rest =>
    some (.real (-Numeral.infinity), rest)
  | _ => none

mutual

/-- Reads a value that starts at once. Each level of nesting and each further item takes one unit
of fuel and at least one character. -/
def readValue : Nat → List Char → Except ReadError (Json × List Char)
  | 0, _ => .error .malformed
  | fuel + 1, cs =>
    match cs with
    | '"' :: rest => (readString rest).map fun (s, rest) => (.str s, rest)
    | '[' :: rest =>
      match skipLayout rest with
      | ']' :: rest => .ok (.arr [], rest)
      | rest => (readItems fuel rest).map fun (items, rest) => (.arr items, rest)
    | '{' :: rest =>
      match skipLayout rest with
      | '}' :: rest => .ok (.obj [], rest)
      | rest => (readMembers fuel rest).map fun (ms, rest) => (.obj (Members.ofWritten ms), rest)
    | cs =>
      match readWord? cs with
      | some reading => .ok reading
      | none => readNumber cs

/-- Reads one item or more and the bracket that closes the array. -/
def readItems : Nat → List Char → Except ReadError (List Json × List Char)
  | 0, _ => .error .malformed
  | fuel + 1, cs => do
    let (item, rest) ← readValue fuel cs
    match skipLayout rest with
    | ']' :: rest => .ok ([item], rest)
    | ',' :: rest => do
      let (items, rest) ← readItems fuel (skipLayout rest)
      .ok (item :: items, rest)
    | _ => .error .malformed

/-- Reads one member or more and the brace that closes the object. -/
def readMembers : Nat → List Char → Except ReadError (List (String × Json) × List Char)
  | 0, _ => .error .malformed
  | fuel + 1, cs =>
    match cs with
    | '"' :: rest => do
      let (name, rest) ← readString rest
      match skipLayout rest with
      | ':' :: rest => do
        let (value, rest) ← readValue fuel (skipLayout rest)
        match skipLayout rest with
        | '}' :: rest => .ok ([(name, value)], rest)
        | ',' :: rest => do
          let (members, rest) ← readMembers fuel (skipLayout rest)
          .ok ((name, value) :: members, rest)
        | _ => .error .malformed
      | _ => .error .malformed
    | _ => .error .malformed

end

/-- Reads a text that holds one value and nothing else. -/
def read (text : String) : Except ReadError Json := do
  let cs := text.toList
  let (value, rest) ← readValue (cs.length + 1) (skipLayout cs)
  if (skipLayout rest).isEmpty then .ok value else .error .malformed

end MiniAlgol.Json
