set_option autoImplicit false

/-!
# Text: classes of characters given by ranges

A class of characters is data of a standard: a list of closed ranges of code
points in ascending order.  This module fixes how such a list is read.  The search
stops at the first range that starts above the code point, so it is short for the
characters that texts mostly hold.
-/

namespace LazyConfig.Text

/-- Whether a code point lies in one of the ranges, which stand in ascending order. -/
def inRanges (n : Nat) : List (Nat × Nat) → Bool
  | [] => false
  | (lo, hi) :: rest =>
      if n < lo then false
      else if n ≤ hi then true
      else inRanges n rest

end LazyConfig.Text
