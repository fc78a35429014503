import TreeSieve.Cli.Invocation
import TreeSieve.Listing.Error

/-!
# What a command line comes to

* `Outcome` is what is printed and how the program ends; `Outcome.errorText` is what it writes on
  the error stream, log records first, and `Outcome.logLines` what it writes to a log file.
-/

namespace TreeSieve.Cli

/-- A failure that ends the program without a message of its own. -/
inductive Failure where
  | listing (e : ListingError)
  | file (e : FileError)
  | circularLinks (path : Text)
  | level (e : LevelError)
  deriving DecidableEq, Repr

/-- The wording of a failure. -/
def Failure.message : Failure → Text
  | listing e => e.message
  | file e => e.message
  | circularLinks path => Text.lit "Symlink loop from " ++ Text.quoted path
  | level e => e.message

/-- How the program ends: with a code, or with a failure. -/
inductive Ending where
  | exit (code : Nat)
  | failed (failure : Failure)
  deriving DecidableEq, Repr

/-- What the program prints, logs and says about errors, and how it ends. -/
structure Outcome where
  ending : Ending
  output : Text
  log : List LogRecord
  errors : Text
  level : LogLevel

namespace Outcome

/-- Text with a line feed behind it. -/
def line (t : Text) : Text := t ++ ['\n']

/-- The records that are important enough to be written. -/
def records (o : Outcome) : List LogRecord := o.log.filter (·.level.passes o.level)

/-- What is written on the error stream. -/
def errorText (o : Outcome) : Text := o.records.flatMap (line ·.line) ++ o.errors

/-- The lines of the log file. -/
def logLines (o : Outcome) : List Text := o.records.map (·.fileLine)

/-- The outcome of a command that printed something and ended with a code. -/
def success (output : Text) (log : List LogRecord) (errors : Text) (code : Nat) : Outcome :=
  ⟨.exit code, output, log, errors, .warning⟩

/-- The outcome of a command that failed. -/
def failure (f : Failure) (log : List LogRecord) : Outcome := ⟨.failed f, [], log, [], .warning⟩

/-- Whether a cause is told to the user as an error; other ones end the program. -/
def isTold : ListingError → Bool
  | .base _ | .options _ | .start _ | .blankPattern | .searchRegex _ _ => true
  | .glob (.reversedRange _ _) => false
  | .glob _ => true
  | .regex _ ⟨.countTooLong _, _⟩ => true
  | .file _ | .regex _ _ => false

/-- The outcome of a command that a listing error ends after some output. -/
def ofError (e : ListingError) (output : Text) (log : List LogRecord) : Outcome :=
  if isTold e then ⟨.exit 1, output, log, line (Text.lit "Error: " ++ e.message), .warning⟩
  else ⟨.failed (.listing e), output, log, [], .warning⟩

end Outcome

end TreeSieve.Cli
