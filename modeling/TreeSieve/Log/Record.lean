import TreeSieve.Log.Level
import TreeSieve.Text.Json

/-!
# Log records

What the operations of this library report is data: each of them tells which records it emits, in
order, and the command line prints those that pass its threshold.

* `LogRecord` is a record; `LogRecord.line` is its line for a terminal, `LogRecord.fileLine` its
  line in a file without the time stamp, and `LogRecord.members` its content as a JSON object.
-/

namespace TreeSieve

/-- A log record: its level, the part of the program that speaks, its message, and further
fields. -/
structure LogRecord where
  level : LogLevel
  component : Text
  message : Text
  context : List (Text × Json)

namespace LogRecord

/-- The line of a record on a terminal. -/
def line (r : LogRecord) : Text := r.level.name ++ Text.lit ": " ++ r.message

/-- The line of a record in a log file, behind its time stamp. -/
def fileLine (r : LogRecord) : Text :=
  r.component ++ Text.lit " - " ++ r.level.name ++ Text.lit " - " ++ r.message

/-- Sets a member of an object. -/
def setMember (members : List (Text × Json)) (member : Text × Json) : List (Text × Json) :=
  if members.any (·.1 == member.1) then
    members.map fun old => if old.1 == member.1 then member else old
  else members ++ [member]

/-- The members of a record as a JSON object; the fields of its context take precedence. -/
def members (r : LogRecord) : List (Text × Json) :=
  r.context.foldl setMember
    [(Text.lit "level", .str r.level.name), (Text.lit "component", .str r.component),
      (Text.lit "message", .str r.message)]

/-- The component that a name stands for; all others are parts of the one without a name. -/
def componentOf (name : Text) : Text := if name.isEmpty then Text.lit "root" else name

/-- The names of the parts of a record, which no field of a context may have. -/
def partNames : List Text := [Text.lit "logger", Text.lit "level", Text.lit "message"]

/-- What is said about a field of a context with such a name. -/
def partGivenTwice (name : Text) : Text :=
  Text.lit "log_with_context() got multiple values for argument '" ++ name ++ ['\'']

/-- A record with further fields, or the name of a field that has the name of a part. -/
def withContext (level : LogLevel) (name message : Text) (context : List (Text × Json)) :
    Except Text LogRecord :=
  match context.find? fun entry => partNames.contains entry.1 with
  | some entry => .error entry.1
  | none => .ok ⟨level, componentOf name, message, context⟩

/-- The record that tells how logging was set up. -/
def configured (level : LogLevel) (json : Bool) : LogRecord where
  level := .debug
  component := Text.lit "ignorewalk"
  message := Text.lit "Logging configured - Level: " ++ level.name ++ Text.lit ", JSON: "
    ++ Text.ofBool json
  context := []

end LogRecord

end TreeSieve
