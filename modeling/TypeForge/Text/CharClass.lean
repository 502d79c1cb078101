/-!
# Character classes as code point ranges

A class of characters is given by the ranges of code points it consists of, both
ends included.  Membership is decided by a linear search, so a table needs no
order to be right.
-/

namespace TypeForge.Text

/-- Inclusive ranges of code points. -/
abbrev Ranges := List (Nat × Nat)

/-- Whether the code point of `c` lies in one of the ranges. -/
def Ranges.has (ranges : Ranges) (c : Char) : Bool :=
  ranges.any fun range => range.1 ≤ c.toNat && c.toNat ≤ range.2

end TypeForge.Text
