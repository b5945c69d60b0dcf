import MiniAlgol.Text.Printable

/-!
Quoted text: the written form of a text value inside messages, traces and array listings.

The mark is a single quote, or a double quote when the text holds a single quote and no double
one. Inside, the mark and the backslash follow a backslash, three layout characters have a letter,
and every other unprintable character is written by its code point in hexadecimal.
-/

namespace MiniAlgol.Text

def quoteMark (cs : List Char) : Char :=
  if cs.contains '\'' && !cs.contains '"' then '"' else '\''

/-- `n` in lower-case hexadecimal, with zeros in front up to `width`. -/
def hexDigits (width n : Nat) : List Char :=
  let digits := Nat.toDigits 16 n
  List.replicate (width - digits.length) '0' ++ digits

/-- The escape of an unprintable character: the shortest of the three widths that fits. -/
def hexEscape (c : Char) : List Char :=
  let n := c.toNat
  if n < 0x100 then '\\' :: 'x' :: hexDigits 2 n
  else if n < 0x10000 then '\\' :: 'u' :: hexDigits 4 n
  else '\\' :: 'U' :: hexDigits 8 n

def quoteChar (mark c : Char) : List Char :=
  if c = mark ∨ c = '\\' then ['\\', c]
  else if c = '\n' then ['\\', 'n']
  else if c = '\r' then ['\\', 'r']
  else if c = '\t' then ['\\', 't']
  else if isPrintable c then [c]
  else hexEscape c

/-- The characters between quotation marks, with the marks. -/
def quoteChars (cs : List Char) : List Char :=
  let mark := quoteMark cs
  mark :: cs.flatMap (quoteChar mark) ++ [mark]

def quote (s : String) : String :=
  String.ofList (quoteChars s.toList)

end MiniAlgol.Text
