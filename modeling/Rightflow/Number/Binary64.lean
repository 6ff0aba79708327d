import Rightflow.Number.Integer

/-!
# The numbers of the 64-bit binary format

A float is not a number, an infinity, or a sign with `mantissa * 2 ^ exponent`.  Decoding reads the
three parts off its bits, so that the exact questions asked of a float (which integer is left of its
fraction, which decimals denote it) are questions about naturals and integers.
-/

namespace Rightflow

inductive Binary64 where
  | nan
  | infinite (negative : Bool)
  | finite (negative : Bool) (mantissa : Nat) (exponent : Int)
deriving DecidableEq, Repr

namespace Binary64

/-- The exponent of the smallest numbers. -/
def leastExponent : Int := -1074

/-- The bit of the mantissa that all but the smallest numbers have without its being stored. -/
def hiddenBit : Nat := 1 <<< 52

/-- What a float denotes. -/
def ofFloat (x : Float) : Binary64 :=
  let bits : Nat := x.toBits.toNat
  let negative : Bool := 1 <<< 63 ≤ bits
  let exponent : Nat := bits / hiddenBit % 2048
  let fraction : Nat := bits % hiddenBit
  if exponent = 2047 then
    if fraction = 0 then .infinite negative else .nan
  else if exponent = 0 then
    .finite negative fraction leastExponent
  else
    .finite negative (fraction + hiddenBit) (leastExponent + exponent - 1)

/-- The whole part of a magnitude. -/
def whole (mantissa : Nat) (exponent : Int) : Nat :=
  mantissa <<< exponent.toNat >>> (-exponent).toNat

/-- The integer that is left when the fraction of a number is dropped. -/
def truncate? : Binary64 → Option Int
  | .finite negative mantissa exponent =>
    let n : Int := whole mantissa exponent
    some (if negative then -n else n)
  | _ => none

end Binary64

/-- The 64-bit integer that is left when the fraction of `x` is dropped, if there is one. -/
def Integer.ofFloat? (x : Float) : Option Int64 :=
  (Binary64.ofFloat x).truncate?.bind Integer.ofInt?

/-- The float nearest to an integer; of two, the one with the even mantissa. -/
def Integer.toFloat (n : Int64) : Float := Float.ofInt n.toInt

end Rightflow
