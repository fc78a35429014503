import TreeSieve.Files.Error
import TreeSieve.Path.Basic
import TreeSieve.Text.Utf8

/-!
# Rules for following paths

* `PathRules` says how the text of a path is read as names to follow, and how long it may be.
* `PathRules.plain` are the rules of a tree in memory, `PathRules.disk` those of a disk.
-/

namespace TreeSieve

/-- How paths are followed. The limits are numbers of bytes. -/
structure PathRules where
  /-- The names to follow for the text of a path, or of the target of a link. A dot among them
  stands for the directory reached so far, which has to be one. -/
  names : Text → List Text
  /-- The longest name that can be looked up, if there is a limit. -/
  longestName : Option Nat
  /-- The longest path that can be asked for, if there is a limit. -/
  longestPath : Option Nat

namespace PathRules

/-- Empty names and dots mean nothing, and nothing is too long. -/
def plain : PathRules := ⟨Path.partsOf, none, none⟩

/-- A path that ends in a slash or in a dot leads to a directory; names and paths have a length that
fits a disk. -/
def disk : PathRules := ⟨Path.partsToFollow, some 255, some 4095⟩

/-- Whether a text goes beyond a limit. -/
def exceeds (t : Text) (limit : Option Nat) : Bool :=
  limit.any fun most => most < (Utf8.encode t).length

/-- Why a name that no entry has is not found. -/
def whyMissing (rules : PathRules) (name : Text) : Errno :=
  if exceeds name rules.longestName then .nameTooLong else .noSuchEntry

/-- Whether a path is too long to be asked for. -/
def refuses (rules : PathRules) (path : Text) : Bool := exceeds path rules.longestPath

end PathRules

end TreeSieve
