/-!
# Sets of code points

A property of characters is a table of ranges of code points, in increasing order.

* `CodeRanges.contains` looks a code point up.
-/

namespace TreeSieve

/-- Ranges of code points, each with its first and last member, in increasing order. -/
abbrev CodeRanges := List (Nat × Nat)

namespace CodeRanges

/-- Whether a code point lies in one of the ranges; the order of the table allows an early end. -/
def contains : CodeRanges → Nat → Bool
  | [], _ => false
  | (first, last) :: ranges, n =>
    if n < first then false else n ≤ last || contains ranges n

end CodeRanges

end TreeSieve
