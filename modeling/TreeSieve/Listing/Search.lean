import TreeSieve.Listing.Directory
import TreeSieve.Pattern.Filter
import TreeSieve.Regex.Parser

/-!
# Searching for paths

* `searchPaths` finds the entries below a directory that fit a regular expression and a path filter.
-/

namespace TreeSieve

/-- What a search looks for. -/
structure SearchFilter where
  regex : Option Regex
  paths : Option PathFilter
  deriving DecidableEq, Repr

/-- The entries that were found, in the order of their paths, and whether there are more. -/
structure SearchResult where
  entries : List Entry
  isLimited : Bool
  deriving DecidableEq, Repr

namespace SearchFilter

/-- Reads the expression of a search. A blank one is refused. -/
def readRegex : Option Text → Except ListingError (Option Regex)
  | none => .ok none
  | some pattern =>
    if pattern.all Text.isBlank then .error .blankPattern
    else
      match Regex.parse false pattern with
      | .ok regex => .ok (some regex)
      | .error e =>
        if e.fault.isOverflow then .error (.regex pattern e)
        else .error (.searchRegex pattern e)

/-- Reads the path patterns of a search; empty ones are dropped, and if none is left every path is
kept. -/
def readGlobs (globs : List Text) : Except ListingError (Option PathFilter) :=
  match globs.filter fun glob => !glob.isEmpty with
  | [] => .ok none
  | lines => ((PathFilter.ofPatterns lines).map some).mapError .glob

/-- Reads what a search looks for. -/
def read (pattern : Option Text) (globs : List Text) : Except ListingError SearchFilter := do
  let regex ← readRegex pattern
  let paths ← readGlobs globs
  return ⟨regex, paths⟩

/-- Whether a relative path is looked for. -/
def accepts (f : SearchFilter) (path : Text) : Bool :=
  f.regex.all (·.search path) && f.paths.all (·.keeps path)

end SearchFilter

/-- Keeps an entry that is looked for, as long as the limit allows. -/
def keepAccepted (filter : SearchFilter) (limit : Option Int) (entry : Entry)
    (acc : List Entry × Bool) : ForInStep (List Entry × Bool) :=
  if !filter.accepts entry.path then .yield acc
  else if limit.any fun most => most ≤ (acc.1.length : Int) then .done (acc.1, true)
  else .yield (entry :: acc.1, acc.2)

/-- Finds paths below a directory. -/
def searchPaths {m : Type → Type} [Monad m] (fs : FileSystem m) (steps : Nat) (current : Path)
    (base : Text) (pattern : Option Text) (globs : List Text) (limit : Option Int) :
    m (Reported SearchResult) := do
  match SearchFilter.read pattern globs with
  | .error e => return ⟨.error e, []⟩
  | .ok filter =>
    let root := Path.absolute current base
    let (found, w) ←
      walkThrough fs steps (keepAccepted filter limit) ([], false) (Walk.new root .plain)
    let order (kept : List Entry × Bool) : SearchResult :=
      ⟨kept.1.reverse.mergeSort fun a b => Text.le a.path b.path, kept.2⟩
    return ⟨found.map order, w.records⟩

end TreeSieve
