import Rightflow.Token.Lexeme

/-!
# Numbers put together digit by digit

A number is read from the left.  Its digits make one natural that never exceeds the largest signed
integer of 64 bits: before the point a number that grows too large is clamped, behind the point the
digits for which there is no room are left out.
-/

namespace Rightflow

/-- What has been read of a number: its digits as one natural, how many of them stand behind the
point, and whether digits had to be left out. -/
structure Numeral where
  magnitude : Nat := 0
  places : Nat := 0
  clamped : Bool := false
deriving DecidableEq, Repr

/-- A product with as many factors more as `n` says, all of them `base`.  The binary digits of `n`
tell which of the repeated squares of `base` are taken into the product. -/
def multiplyPower (product base : Float) (n : Nat) : Float :=
  let product := if n % 2 = 1 then product * base else product
  if n / 2 = 0 then product else multiplyPower product (base * base) (n / 2)
termination_by n
decreasing_by omega

namespace Numeral

/-- The largest magnitude. -/
def limit : Nat := (1 <<< 63) - 1

def digit (c : Char) : Nat := c.toNat - '0'.toNat

/-- A digit before the point: a number that grows too large becomes the largest one. -/
def pushWhole (n : Numeral) (c : Char) : Numeral :=
  let m := n.magnitude * 10 + digit c
  if n.clamped then n
  else if m ≤ limit then { n with magnitude := m }
  else { n with magnitude := limit, clamped := true }

/-- A digit behind the point: from the first one for which there is no room, all are left out. -/
def pushPlace (n : Numeral) (c : Char) : Numeral :=
  let m := n.magnitude * 10 + digit c
  if n.clamped then n
  else if m ≤ limit then { n with magnitude := m, places := n.places + 1 }
  else { n with clamped := true }

def toInt64 (n : Numeral) : Int64 := Int64.ofNat n.magnitude

/-- The power of ten as a float.  Every product on the way to it is rounded, so that a large power
need not be the float nearest to it. -/
def tenTo (n : Nat) : Float := multiplyPower 1 10 n

/-- The magnitude divided by the power of ten of its places, both as floats. -/
def toFloat (n : Numeral) : Float := Float.ofNat n.magnitude / tenTo n.places

def caution? (n : Numeral) : Option Caution := if n.clamped then some .clamped else none

end Numeral

end Rightflow
