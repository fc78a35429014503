import TreeSieve.Pattern.Expression

/-!
# Choosing paths by patterns

* `PathFilter.ofPatterns` reads a list of patterns.
* `PathFilter.keeps` tells whether a relative path is chosen: the last pattern that matches it
  decides, and a path that none matches is left out.
-/

namespace TreeSieve

/-- The patterns of a filter in order, each with whether it excludes what it matches. -/
structure PathFilter where
  patterns : List (Bool × Regex)
  deriving DecidableEq, Repr

namespace PathFilter

/-- Reads the patterns of a filter; lines without a pattern do nothing. -/
def ofPatterns (lines : List Text) : Except GlobFault PathFilter :=
  (lines.mapM includingRegex?).map fun patterns => ⟨patterns.filterMap id⟩

/-- Whether a filter keeps a relative path. -/
def keeps (filter : PathFilter) (path : Text) : Bool :=
  match filter.patterns.reverse.find? fun (_, regex) => regex.search path with
  | some (negated, _) => !negated
  | none => false

end PathFilter

end TreeSieve
