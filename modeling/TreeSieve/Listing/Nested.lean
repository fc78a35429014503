import TreeSieve.Listing.Directory
import TreeSieve.Regex.Parser

/-!
# Nested listings

* `NameTree` holds names nested like the paths they make up.
* `nestDirectoryBy` builds the names of everything below a directory that is not ignored. What is
  kept of it is asked for by a regular expression, and what regular expressions mean is a parameter:
  a `RegexReading`.
* `nestDirectory` reads them as `Regex.parse` does, with letter case ignored.
-/

namespace TreeSieve

/-- Names with what is nested under each, in the order in which they were added. -/
inductive NameTree where
  | node (children : List (Text × NameTree))

namespace NameTree

/-- A tree without names. -/
def empty : NameTree := node []

/-- The names at the top of a tree with what is nested under each. -/
def children : NameTree → List (Text × NameTree)
  | node children => children

/-- The tree for names nested one in the other. -/
def single : List Text → NameTree
  | [] => empty
  | name :: rest => node [(name, single rest)]

mutual

/-- Adds nested names to a tree. -/
def insert (names : List Text) : NameTree → NameTree
  | node children => node (insertInto names children)

/-- Adds nested names to the names at the top of a tree. -/
def insertInto (names : List Text) : List (Text × NameTree) → List (Text × NameTree)
  | [] => (single names).children
  | (other, below) :: others =>
    match names with
    | [] => (other, below) :: others
    | name :: rest =>
      if other = name then (other, below.insert rest) :: others
      else (other, below) :: insertInto names others

end

end NameTree

/-- A nested listing: its names, how many entries they make up, and whether there are more. -/
structure NestedListing where
  content : NameTree
  total : Nat
  isLimited : Bool

/-- Keeps an entry whose path is wanted, as long as the limit allows. -/
def keepWanted (wanted : Text → Bool) (limit : Int) (entry : Entry)
    (acc : List Entry × Bool) : ForInStep (List Entry × Bool) :=
  if !wanted entry.path then .yield acc
  else if limit ≤ acc.1.length then .done (acc.1, true)
  else .yield (entry :: acc.1, acc.2)

/-- A reading of regular expressions: the texts in which an expression is found, or what is wrong
with it. -/
abbrev RegexReading := Text → Except RegexError (Text → Bool)

/-- Regular expressions as they are searched for, with letter case ignored. -/
def RegexReading.ignoringCase : RegexReading := fun pattern =>
  (Regex.parse true pattern).map Regex.search

/-- The paths that are wanted: those in which the expression is found, and all of them if none is
asked for. An empty text asks for none. -/
def RegexReading.filter (reading : RegexReading) (regexp : Option Text) :
    Except ListingError (Text → Bool) :=
  match regexp with
  | none | some [] => .ok fun _ => true
  | some pattern => (reading pattern).mapError (.regex pattern)

/-- Builds the nested listing of a directory inside a base, whatever regular expressions mean. -/
def nestDirectoryBy {m : Type → Type} [Monad m] (reading : RegexReading) (fs : FileSystem m)
    (steps : Nat) (current : Path) (base : Text) (name : Option Text) (depth : Option Int)
    (regexp : Option Text) (limit : Int) : m (Reported NestedListing) := do
  match Path.resolveWithin current base name with
  | .error e => return ⟨.error (.base e), e.log⟩
  | .ok target =>
    match reading.filter regexp with
    | .error e => return ⟨.error e, []⟩
    | .ok wanted =>
      match { Walk.Request.plain with maxDepth := depth }.check with
      | .error e => return ⟨.error (.options e), []⟩
      | .ok options =>
        let (found, w) ←
          walkThrough fs steps (keepWanted wanted limit) ([], false) (Walk.new target options)
        let nest (kept : List Entry × Bool) : NestedListing :=
          let entries := kept.1.reverse
          ⟨entries.foldl (fun tree entry => tree.insert entry.names) .empty, entries.length, kept.2⟩
        return ⟨found.map nest, w.records⟩

/-- Builds the nested listing of a directory inside a base. -/
def nestDirectory {m : Type → Type} [Monad m] (fs : FileSystem m) (steps : Nat) (current : Path)
    (base : Text) (name : Option Text) (depth : Option Int) (regexp : Option Text) (limit : Int) :
    m (Reported NestedListing) :=
  nestDirectoryBy .ignoringCase fs steps current base name depth regexp limit

end TreeSieve
