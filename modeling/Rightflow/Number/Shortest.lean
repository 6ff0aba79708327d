import Rightflow.Number.Binary64

/-!
# The shortest decimal of a binary number

Between two neighbouring floats every real number is read as the nearer one, so a float owns an
interval of reals around it; the ends belong to it exactly if its mantissa is even.  Its shortest
decimal is the one with the fewest digits inside that interval, of those the one nearest to the
float, and of two equally near the greater.

On the grid of the multiples of `10 ^ e` only the two neighbours of the float need a test: if any
point of the grid lies in the interval, one of these does.  All comparisons are made exactly, on
naturals.
-/

namespace Rightflow

/-- The number `digits * 10 ^ exponent`. -/
structure Decimal where
  digits : Nat
  exponent : Int
deriving DecidableEq, Repr

namespace Shortest

/-- The powers `b ^ e` and `b ^ -e` of which one is a natural, as numerator and denominator. -/
def power (b : Nat) (e : Int) : Nat × Nat := (b.pow e.toNat, b.pow (-e).toNat)

/-- How many decimal digits a positive natural has. -/
def digitCount (n : Nat) : Nat := (Nat.toDigits 10 n).length

/-- The interval of a float in quarters of the last place of its mantissa. -/
structure Interval where
  low : Nat
  value : Nat
  high : Nat
  /-- Whether the ends belong to the interval. -/
  closed : Bool
  /-- The size of a quarter, as a numerator and a denominator. -/
  quarter : Nat × Nat

/-- The lower neighbour of a power of two is nearer than the upper one, except at the bottom. -/
def interval (mantissa : Nat) (exponent : Int) : Interval where
  low := 4 * mantissa -
    if mantissa = Binary64.hiddenBit ∧ Binary64.leastExponent < exponent then 1 else 2
  value := 4 * mantissa
  high := 4 * mantissa + 2
  closed := mantissa % 2 = 0
  quarter := power 2 (exponent - 2)

/-- Whether `k * 10 ^ e` lies in the interval. -/
def Interval.contains (i : Interval) (k : Nat) (e : Int) : Bool :=
  let grid := power 10 e
  let point := k * grid.1 * i.quarter.2
  let low := i.low * i.quarter.1 * grid.2
  let high := i.high * i.quarter.1 * grid.2
  if i.closed then low ≤ point && point ≤ high else low < point && point < high

/-- The best multiple of `10 ^ e` in the interval, if there is any. -/
def Interval.nearest? (i : Interval) (e : Int) : Option Nat :=
  let grid := power 10 e
  let num := i.value * i.quarter.1 * grid.2
  let den := i.quarter.2 * grid.1
  let k := num / den
  match i.contains k e, i.contains (k + 1) e with
  | true, true => some (if 2 * (num % den) < den then k else k + 1)
  | true, false => some k
  | false, true => some (k + 1)
  | false, false => none

/-- The number of decimal digits in front of the point; for a number below one, minus the number
of zeros that follow the point. -/
def Interval.magnitude (i : Interval) : Int :=
  let num := i.value * i.quarter.1
  let den := i.quarter.2
  if den ≤ num then digitCount (num / den)
  else
    let count := digitCount (den / num)
    if num * Nat.pow 10 (count - 1) = den then 2 - count else 1 - count

/-- The first grid with a point in the interval, beginning with the multiples of `10 ^ e`. -/
def Interval.search (i : Interval) : Nat → Int → Decimal
  | 0, e => ⟨i.value * i.quarter.1 * (power 10 e).2 / (i.quarter.2 * (power 10 e).1), e⟩
  | n + 1, e =>
    match i.nearest? e with
    | some k => ⟨k, e⟩
    | none => i.search n (e - 1)

/-- Moves the zeros at the end of the digits into the exponent, at most `n` of them. -/
def trim : Nat → Decimal → Decimal
  | 0, d => d
  | n + 1, d => if d.digits % 10 = 0 then trim n ⟨d.digits / 10, d.exponent + 1⟩ else d

end Shortest

/-- The shortest decimal of `mantissa * 2 ^ exponent`, for a positive mantissa.  Seventeen digits
suffice for every float. -/
def Decimal.shortest (mantissa : Nat) (exponent : Int) : Decimal :=
  let i := Shortest.interval mantissa exponent
  Shortest.trim 17 (i.search 17 (i.magnitude - 1))

end Rightflow
