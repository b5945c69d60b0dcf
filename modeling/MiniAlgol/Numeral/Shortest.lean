/-!
The shortest decimal of a double.

A positive finite double is `m * 2 ^ q`. The reals that round to it form an interval around it,
closed when `m` is even. Among the decimals in this interval with the fewest digits, the one
nearest the double is taken, and of two equally near the one with an even last digit.
-/

namespace MiniAlgol.Numeral

/-- A non-negative rational, the denominator being positive wherever it is used. -/
structure Ratio where
  num : Nat
  den : Nat

/-- `n * base ^ e` for an exponent of either sign. -/
def Ratio.scaled (n base : Nat) (e : Int) : Ratio :=
  if 0 ≤ e then ⟨n * base.pow e.toNat, 1⟩ else ⟨n, base.pow (-e).toNat⟩

/-- `a < b` by cross multiplication. -/
def Ratio.less (a b : Ratio) : Bool :=
  a.num * b.den < b.num * a.den

/-- The quotient `a / b` rounded down. -/
def Ratio.floorDiv (a b : Ratio) : Nat :=
  (a.num * b.den) / (a.den * b.num)

/-- A positive finite double `mantissa * 2 ^ exponent`. -/
structure Binary where
  mantissa : Nat
  exponent : Int

namespace Binary

def leastExponent : Int := -1074

/-- The leading bit of a mantissa, which only the smallest doubles lack. -/
def leadingBit : Nat := 0x10000000000000

/-- Mantissa and exponent of the double with these bits, its sign dropped. -/
def ofBits (bits : Nat) : Binary :=
  let fraction := bits % leadingBit
  let field : Nat := bits / leadingBit % 0x800
  if field = 0 then ⟨fraction, leastExponent⟩ else ⟨leadingBit + fraction, (field : Int) - 1075⟩

/-- The exact value. -/
def value (x : Binary) : Ratio :=
  Ratio.scaled x.mantissa 2 x.exponent

/-- The lower end of the reals that round to the double: half way to its lower neighbour, which
is nearer when the mantissa is a power of two. -/
def lower (x : Binary) : Ratio :=
  if x.mantissa = leadingBit ∧ leastExponent < x.exponent then
    Ratio.scaled (4 * x.mantissa - 1) 2 (x.exponent - 2)
  else Ratio.scaled (2 * x.mantissa - 1) 2 (x.exponent - 1)

/-- The upper end of the reals that round to the double. -/
def upper (x : Binary) : Ratio :=
  Ratio.scaled (2 * x.mantissa + 1) 2 (x.exponent - 1)

/-- Whether a decimal reads back as the double. The ends count when the mantissa is even. -/
def covers (x : Binary) (r : Ratio) : Bool :=
  if x.mantissa % 2 = 0 then !r.less x.lower && !x.upper.less r
  else x.lower.less r && r.less x.upper

/-- The `k` with `10 ^ (k - 1) ≤ x < 10 ^ k`: how many places the value has before the point.
The binary magnitude gives an estimate, and one of its neighbours is right. -/
def places (x : Binary) : Int :=
  let estimate := ((Nat.log2 x.mantissa : Int) + x.exponent) * 30103 / 100000
  let candidates := [estimate - 1, estimate, estimate + 1]
  (candidates.find? fun k => x.value.less (Ratio.scaled 1 10 k)).getD (estimate + 2)

end Binary

/-- The decimal `digits * 10 ^ exponent`. -/
structure Decimal where
  digits : Nat
  exponent : Int
  deriving DecidableEq, Repr

/-- The better of the two neighbours of the double among the multiples of `10 ^ unitExponent`,
counted in these units, when at least one of them reads back. -/
def nearestOnGrid (x : Binary) (unitExponent : Int) : Option Nat :=
  let unit := Ratio.scaled 1 10 unitExponent
  let below := x.value.floorDiv unit
  let lowHit := x.covers (Ratio.scaled below 10 unitExponent)
  let highHit := x.covers (Ratio.scaled (below + 1) 10 unitExponent)
  -- twice the value against the middle of the two neighbours
  let twice : Ratio := ⟨2 * x.value.num, x.value.den⟩
  let middle := Ratio.scaled (2 * below + 1) 10 unitExponent
  if lowHit && highHit then
    if twice.less middle then some below
    else if middle.less twice then some (below + 1)
    else some (if below % 2 = 0 then below else below + 1)
  else if lowHit then some below
  else if highHit then some (below + 1)
  else none

/-- Tries grids of `count` digits and more, at most `fuel` of them. -/
def shortestFrom (x : Binary) (places : Int) : (fuel count : Nat) → Decimal
  | 0, count => ⟨x.value.floorDiv (Ratio.scaled 1 10 (places - count)), places - count⟩
  | fuel + 1, count =>
    match nearestOnGrid x (places - count) with
    | some digits => ⟨digits, places - count⟩
    | none => shortestFrom x places fuel (count + 1)

/-- The shortest decimal of a positive double, before trailing zeros are dropped. Seventeen digits
always suffice. -/
def shortest (x : Binary) : Decimal :=
  shortestFrom x x.places 17 1

end MiniAlgol.Numeral
