/-!
Sets of code points, as closed ranges.
-/

namespace FrontEnd.Text

/-- The ranges are given by their first and last code points, in ascending order and apart. -/
structure CodePoints where
  ranges : List (Nat × Nat)

namespace CodePoints

def contains (set : CodePoints) (c : Char) : Bool :=
  set.ranges.any fun range => range.1 ≤ c.toNat && c.toNat ≤ range.2

/-- Whether ranges above `low` are in order, and no two of them could be one. -/
def ascendFrom (low : Nat) : List (Nat × Nat) → Bool
  | [] => true
  | (first, last) :: rest => low < first && first ≤ last && ascendFrom (last + 1) rest

def isAscending (set : CodePoints) : Bool := ascendFrom 0 set.ranges

end CodePoints

end FrontEnd.Text
