import TreeSieve.Text.Quoted

/-!
# File errors

* `Errno` says why a file operation failed: causes that this library tells apart have names, and any
  other one is known by its number and its wording. `Errno.ofFailure` reads a cause.
* `FileError` is such a failure on a path as it was asked for; `FileError.message` words it.
-/

namespace TreeSieve

/-- The numbers of the causes that have names. -/
def Errno.namedNumbers : List Nat := [2, 5, 13, 17, 20, 21, 36, 40]

/-- Why a file operation failed. -/
inductive Errno where
  | noSuchEntry
  | inputOutput
  | accessDenied
  | alreadyExists
  | notADirectory
  | isADirectory
  | nameTooLong
  | tooManyLinks
  | other (number : Nat) (wording : Text) (unnamed : number ∉ Errno.namedNumbers)
  deriving DecidableEq, Repr

namespace Errno

/-- The number of a cause. -/
def number : Errno → Nat
  | noSuchEntry => 2
  | inputOutput => 5
  | accessDenied => 13
  | alreadyExists => 17
  | notADirectory => 20
  | isADirectory => 21
  | nameTooLong => 36
  | tooManyLinks => 40
  | other number _ _ => number

/-- The wording of a cause. -/
def wording : Errno → Text
  | noSuchEntry => Text.lit "No such file or directory"
  | inputOutput => Text.lit "Input/output error"
  | accessDenied => Text.lit "Permission denied"
  | alreadyExists => Text.lit "File exists"
  | notADirectory => Text.lit "Not a directory"
  | isADirectory => Text.lit "Is a directory"
  | nameTooLong => Text.lit "File name too long"
  | tooManyLinks => Text.lit "Too many levels of symbolic links"
  | other _ wording _ => wording

/-- The causes that have names. -/
def named : List Errno :=
  [noSuchEntry, inputOutput, accessDenied, alreadyExists, notADirectory, isADirectory, nameTooLong,
    tooManyLinks]

/-- The cause with a number, if it has a name. -/
def ofNumber? (n : Nat) : Option Errno := named.find? fun cause => cause.number == n

theorem not_mem_namedNumbers {n : Nat} (h : ofNumber? n = none) : n ∉ namedNumbers := by
  intro hmem
  obtain ⟨cause, hcause, rfl⟩ := List.mem_map.mp (show n ∈ named.map number from hmem)
  exact List.find?_eq_none.mp h cause hcause BEq.rfl

/-- The cause with a number, and with the given wording if it has no name. -/
def ofFailure (n : Nat) (wording : Text) : Errno :=
  match h : ofNumber? n with
  | some cause => cause
  | none => other n wording (not_mem_namedNumbers h)

/-- Whether a cause means that there is no such entry, or none that can be reached. A descriptor
that is no longer open counts as one that cannot. -/
def meansMissing : Errno → Bool
  | noSuchEntry | notADirectory | tooManyLinks => true
  | other number _ _ => number = 9
  | _ => false

end Errno

/-- A failed file operation and the path it was asked for. -/
structure FileError where
  cause : Errno
  path : Text
  deriving DecidableEq, Repr

/-- The wording of a failure. -/
def FileError.message (e : FileError) : Text :=
  Text.lit "[Errno " ++ Text.ofNat e.cause.number ++ Text.lit "] " ++ e.cause.wording
    ++ Text.lit ": " ++ Text.quoted e.path

end TreeSieve
