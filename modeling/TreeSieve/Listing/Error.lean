import TreeSieve.Path.Base
import TreeSieve.Pattern.Error
import TreeSieve.Walk.Options
import TreeSieve.Walk.Start

/-!
# What can go wrong with a listing

* `ListingError` is the cause, `ListingError.message` its wording.
-/

namespace TreeSieve

/-- Why a listing is refused or breaks off. A regular expression that is asked for in a search is
reported as part of the search, other ones as they are. -/
inductive ListingError where
  | base (e : BaseError)
  | options (e : OptionError)
  | start (e : StartError)
  | file (e : FileError)
  | regex (pattern : Text) (e : RegexError)
  | glob (fault : GlobFault)
  | blankPattern
  | searchRegex (pattern : Text) (e : RegexError)
  deriving DecidableEq, Repr

/-- The wording of a cause. -/
def ListingError.message : ListingError → Text
  | base e => e.message
  | options e => e.message
  | start e => e.message
  | file e => e.message
  | regex pattern e => e.message pattern
  | glob fault => fault.message
  | blankPattern => Text.lit "pattern cannot be empty"
  | searchRegex pattern e => Text.lit "Invalid regex pattern: " ++ e.message pattern

/-- The answer of a listing, with the records that it emitted on the way. -/
structure Reported (α : Type) where
  answer : Except ListingError α
  log : List LogRecord

end TreeSieve
