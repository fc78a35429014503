import TreeSieve.Listing.Error
import TreeSieve.Walk.Step

/-!
# Listing a directory

* `listChildren` lists the entries of a directory inside a base that are not ignored.
-/

namespace TreeSieve

/-- The entries of a directory, and whether there are more than were asked for. -/
structure DirectoryListing where
  entries : List Entry
  isLimited : Bool
  deriving DecidableEq, Repr

/-- How many results a listing gives if no limit is asked for. -/
def defaultLimit : Nat := 200

/-- Starts a walk and goes through its entries. -/
def walkThrough {m : Type → Type} [Monad m] {β : Type} (fs : FileSystem m) (steps : Nat)
    (f : Entry → β → ForInStep β) (acc : β) (w : Walk) :
    m (Except ListingError β × Walk) := do
  match ← w.start fs with
  | (.error e, w) => return (.error (.start e), w)
  | (.ok (), w) =>
    let (found, w) ← w.visit fs f steps acc
    return (found.mapError .file, w)

/-- Lists a directory inside a base, up to a limit if there is one. -/
def listChildren {m : Type → Type} [Monad m] (fs : FileSystem m) (steps : Nat) (current : Path)
    (base : Text) (name : Option Text) (limit : Option Int) : m (Reported DirectoryListing) := do
  match Path.resolveWithin current base name with
  | .error e => return ⟨.error (.base e), e.log⟩
  | .ok target =>
    match { Walk.Request.plain with maxDepth := some 1, maxEntries := limit }.check with
    | .error e => return ⟨.error (.options e), []⟩
    | .ok options =>
      let collect (entry : Entry) (acc : List Entry) := ForInStep.yield (entry :: acc)
      let (found, w) ← walkThrough fs steps collect [] (Walk.new target options)
      return ⟨found.map fun entries => ⟨entries.reverse, w.truncated⟩, w.records⟩

end TreeSieve
