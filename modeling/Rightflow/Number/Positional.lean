import Rightflow.Number.Shortest

/-!
# Floats in positional notation

A float is written with its shortest decimal, never with an exponent: digits, zeros up to the point
or behind it, and no point after a whole number.  Zero keeps its sign, and so does infinity.

The text is produced in pieces (a sign, the digits, runs of zeros), which is how it reaches a sink
that may refuse some of them.
-/

namespace Rightflow

/-- The text of `n` zeros. -/
def zeros (n : Nat) : String := String.ofList (List.replicate n '0')

/-- The longest run of zeros that is written at once. -/
def zeroRun : Nat := 64

/-- `n` zeros: full runs, then the last one, which may be full too. -/
def zeroPieces (n : Nat) : List String :=
  let runs := (n - 1) / zeroRun
  List.replicate runs (zeros zeroRun) ++ [zeros (n - runs * zeroRun)]

/-- A positive decimal without an exponent. -/
def Decimal.pieces (d : Decimal) : List String :=
  let digits := Nat.toDigits 10 d.digits
  let point : Int := digits.length + d.exponent
  if point ≤ 0 then
    "0." :: zeroPieces (-point).toNat ++ [String.ofList digits]
  else if point < digits.length then
    [String.ofList (digits.take point.toNat), ".", String.ofList (digits.drop point.toNat)]
  else
    String.ofList digits :: zeroPieces (point - digits.length).toNat

namespace Binary64

def signPieces (negative : Bool) : List String := if negative then ["-"] else []

/-- The pieces in which a number is written. -/
def pieces : Binary64 → List String
  | .nan => ["NaN"]
  | .infinite negative => signPieces negative ++ ["inf"]
  | .finite negative 0 _ => signPieces negative ++ ["0"]
  | .finite negative mantissa exponent =>
    signPieces negative ++ (Decimal.shortest mantissa exponent).pieces

end Binary64

namespace Positional

def pieces (x : Float) : List String := (Binary64.ofFloat x).pieces

/-- The text of a float. -/
def text (x : Float) : String := String.join (pieces x)

end Positional

end Rightflow
