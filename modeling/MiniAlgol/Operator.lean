import MiniAlgol.Value.Listing

/-!
Binary operators.

Integers are exact and their quotient goes toward zero. An integer beside a real becomes the
nearest double, and it is an error when there is none. Text on either side of `+` joins the plain
texts of both sides.
-/

namespace MiniAlgol

/-- The quotient rounded toward zero, of a divisor that is not zero. -/
def truncatedQuotient (a b : Int) : Except Fault Int :=
  if b = 0 then .error .zeroDivisor else .ok (Int.tdiv a b)

/-- The quotient of reals, of a divisor that is not zero. -/
def realQuotient (a b : Float) : Except Fault Float :=
  if b == 0 then .error .zeroRealDivisor else .ok (a / b)

/-- The arithmetic operators. -/
inductive Arithmetic where
  | add
  | subtract
  | multiply
  | divide
  deriving DecidableEq, Repr

/-- The operators that compare by size. -/
inductive Order where
  | less
  | greater
  | lessEqual
  | greaterEqual
  deriving DecidableEq, Repr

/-- The operators of the language. -/
inductive Operator where
  | arithmetic (a : Arithmetic)
  | order (o : Order)
  | equal
  | notEqual
  deriving DecidableEq, Repr

namespace Operator

def ofSign? : String → Option Operator
  | "+" => some (.arithmetic .add)
  | "-" => some (.arithmetic .subtract)
  | "*" => some (.arithmetic .multiply)
  | "/" => some (.arithmetic .divide)
  | "==" => some .equal
  | "!=" => some .notEqual
  | "<" => some (.order .less)
  | ">" => some (.order .greater)
  | "<=" => some (.order .lessEqual)
  | ">=" => some (.order .greaterEqual)
  | _ => none

end Operator

namespace Arithmetic

def onIntegers : Arithmetic → Int → Int → Except Fault Int
  | add, a, b => .ok (a + b)
  | subtract, a, b => .ok (a - b)
  | multiply, a, b => .ok (a * b)
  | divide, a, b => truncatedQuotient a b

def onReals : Arithmetic → Float → Float → Except Fault Float
  | add, a, b => .ok (a + b)
  | subtract, a, b => .ok (a - b)
  | multiply, a, b => .ok (a * b)
  | divide, a, b => realQuotient a b

end Arithmetic

namespace Order

def onIntegers : Order → Int → Int → Bool
  | less, a, b => a < b
  | greater, a, b => a > b
  | lessEqual, a, b => a ≤ b
  | greaterEqual, a, b => a ≥ b

/-- The comparison of reals; what is no number compares false. -/
def onReals : Order → Float → Float → Bool
  | less, a, b => a < b
  | greater, a, b => a > b
  | lessEqual, a, b => a ≤ b
  | greaterEqual, a, b => a ≥ b

end Order

namespace Value

/-- Whether the value is a number equal to zero. -/
def isZero : Value → Bool
  | int n => n == 0
  | real x => x == 0
  | _ => false

/-- A number as a double, if one is near enough. -/
def toReal? : Value → Option Float
  | int n => Numeral.realOfInteger? n
  | real x => some x
  | _ => none

/-- Refuses operands that the operator does not take. -/
def unsupported (heap : Heap) (op : String) (a b : Value) : Except Fault Value := do
  let left ← a.typeName heap
  let right ← b.typeName heap
  .error (.unsupported op left right)

/-- Both numbers as doubles. -/
def promote (heap : Heap) (op : String) (a b : Value) : Except Fault (Float × Float) :=
  match a.toReal?, b.toReal? with
  | some x, some y => .ok (x, y)
  | _, _ => do
    let left ← a.typeName heap
    let right ← b.typeName heap
    .error (.tooLargeForReal op left right)

def arithmetic (heap : Heap) (op : String) (f : Arithmetic) (a b : Value) : Except Fault Value :=
  match a, b with
  | int m, int n => return int (← f.onIntegers m n)
  | _, _ =>
    if a.isNumeric && b.isNumeric then do
      let (x, y) ← promote heap op a b
      return real (← f.onReals x y)
    else unsupported heap op a b

def isText : Value → Bool
  | text _ => true
  | _ => false

def compare (heap : Heap) (op : String) (o : Order) (a b : Value) : Except Fault Value :=
  match a, b with
  | int m, int n => .ok (bool (o.onIntegers m n))
  | _, _ =>
    if a.isNumeric && b.isNumeric then do
      let (x, y) ← promote heap op a b
      return bool (o.onReals x y)
    else unsupported heap op a b

def applySign (heap : Heap) (op : String) (a b : Value) : Except Fault Value :=
  match Operator.ofSign? op with
  | none => .error (.unknownOperator op)
  | some .equal => .ok (bool (a.equal b))
  | some .notEqual => .ok (bool (!a.equal b))
  | some (.order o) => compare heap op o a b
  | some (.arithmetic .add) =>
    if a.isText || b.isText then do
      let left ← a.plainText heap
      let right ← b.plainText heap
      return text (left ++ right)
    else arithmetic heap op .add a b
  | some (.arithmetic .divide) =>
    if b.isZero then do
      let shown ← a.plainText heap
      .error (.divisionByZero op shown a)
    else arithmetic heap op .divide a b
  | some (.arithmetic f) => arithmetic heap op f a b

/-- Applies the operator that a label stands for; only a word can be the sign of one. -/
def apply (heap : Heap) (op : Label) (a b : Value) : Except Fault Value :=
  match op with
  | .str sign => applySign heap sign a b
  | op => .error (.unknownOperator op)

end Value

end MiniAlgol
