import TreeSieve.Log.Record
import TreeSieve.Path.Basic

/-!
# Staying within a base

* `Path.within` accepts a path that is a base or lies below it by its text.
* `Path.resolveWithin` finds the directory that a user names inside a base.
-/

namespace TreeSieve

/-- Why a path is refused: the base or the path is relative, or the path lies outside. -/
inductive BaseError where
  | relativeBase (base : Text)
  | relativePath (path : Text)
  | outside (path base : Path)
  deriving DecidableEq, Repr

namespace BaseError

/-- The wording of a refusal. -/
def message : BaseError → Text
  | relativeBase base => Text.lit "Base path must be an absolute path, got " ++ base
  | relativePath path => Text.lit "Candidate path must be an absolute path, got " ++ path
  | outside path _ => Text.lit "Candidate path must be within base path: " ++ path.toText

/-- The records of a refusal: only a path outside its base is worth one. -/
def log : BaseError → List LogRecord
  | outside path base =>
    [{ level := .error
       component := Text.lit "ignorewalk.listing"
       message := Text.lit "Candidate path " ++ path.toText ++ Text.lit " is outside base path "
         ++ base.toText
       context := [] }]
  | _ => []

end BaseError

namespace Path

/-- The collapsed path of a text, if it lies within a base. -/
def within (base path : Text) : Except BaseError Path :=
  if base.head? != some '/' then .error (.relativeBase base)
  else if path.head? != some '/' then .error (.relativePath path)
  else
    let directory := (ofText base).collapse
    let found := (ofText path).collapse
    if found.isBelow directory then .ok found else .error (.outside found directory)

/-- The directory named by `name` as seen from a base, which it must not leave; without a name it is
the base. A relative base is read in the directory `current`. -/
def resolveWithin (current : Path) (base : Text) (name : Option Text) : Except BaseError Path :=
  let directory := absolute current base
  let target :=
    match name with
    | none | some [] => directory
    | some name => directory.join (ofText name).collapse
  within directory.toText target.collapse.toText

end Path

end TreeSieve
