import LogOrigin.Text.Basic

-- Sets of characters given as ranges of code points, both ends included.

namespace LogOrigin

namespace Text

abbrev CodeRanges := List (Nat × Nat)

def CodeRanges.has (rs : CodeRanges) (c : Char) : Bool :=
  rs.any fun r => r.1 ≤ c.toNat && c.toNat ≤ r.2

end Text

end LogOrigin
