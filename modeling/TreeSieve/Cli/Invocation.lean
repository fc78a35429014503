import TreeSieve.Cli.Grammar
import TreeSieve.Listing.Directory

/-!
# Command lines

* `Command` lists the commands with their arguments, `Invocation` is a whole command line.
* `Invocation.read` reads one.
-/

namespace TreeSieve.Cli

/-- A command with its arguments. -/
inductive Command where
  | walk (path : Text) (ignoreNames : List Text) (followLinks : Bool)
      (maxDepth maxEntries : Option Int) (includeEmpty json : Bool)
  | ls (path : Text) (limit : Int) (json : Bool)
  | tree (path : Text) (depth : Option Int) (regexp : Option Text) (limit : Int)
  | find (pattern : Option Text) (path : Text) (globs : List Text) (limit : Option Int)
      (json : Bool)
  | check (paths : List Text) (root : Text) (ignoreNames : List Text)
  deriving DecidableEq, Repr

/-- A command line: how to log, and what to do, if anything. -/
structure Invocation where
  logLevel : Option Text
  logFile : Option Text
  command : Option Command
  deriving DecidableEq, Repr

/-- The option that asks for help, in both spellings. -/
def helpOptions : List OptionSpec := [⟨Text.lit "-h", .help⟩, ⟨Text.lit "--help", .help⟩]

/-- Options from their names and kinds, together with the one that asks for help. -/
def options (specs : List (String × OptionKind)) : List OptionSpec :=
  helpOptions ++ specs.map fun (name, kind) => ⟨Text.lit name, kind⟩

/-- The directory a command works on if none is named. -/
def here : Text := Path.dot

/-- Reads the arguments of a command into its settings; nothing may be left over, and operands that
are required must be there. -/
def readCommand (specs : List (String × OptionKind)) (operands : Operands) (args : List Text) :
    Except Stop (Reading × Bool) := do
  let grammar : Grammar := ⟨options specs, operands⟩
  let (reading, _) ← grammar.read (fun _ => .error .misuse : List Text → Except Stop Unit) args
  if operands = .atLeastOne && reading.operands.isNone then throw .misuse
  return (reading, reading.leftOver)

/-- The limit of a listing. -/
def limitOf (r : Reading) : Int := (r.number? (Text.lit "--limit")).getD defaultLimit

/-- Reads the arguments of `walk`. -/
def readWalk (args : List Text) : Except Stop (Command × Bool) := do
  let (r, leftOver) ← readCommand
    [("--ignore-file", .text), ("--follow-symlinks", .flag), ("--max-depth", .number),
      ("--max-entries", .number), ("--include-empty-dirs", .flag), ("--json", .flag)]
    .atMostOne args
  let command := .walk (r.operand?.getD here) (r.texts (Text.lit "--ignore-file"))
    (r.isSet (Text.lit "--follow-symlinks")) (r.number? (Text.lit "--max-depth"))
    (r.number? (Text.lit "--max-entries")) (r.isSet (Text.lit "--include-empty-dirs"))
    (r.isSet (Text.lit "--json"))
  return (command, leftOver)

/-- Reads the arguments of `ls`. -/
def readLs (args : List Text) : Except Stop (Command × Bool) := do
  let (r, leftOver) ← readCommand [("--limit", .number), ("--json", .flag)] .atMostOne args
  return (.ls (r.operand?.getD here) (limitOf r) (r.isSet (Text.lit "--json")), leftOver)

/-- Reads the arguments of `tree`. -/
def readTree (args : List Text) : Except Stop (Command × Bool) := do
  let (r, leftOver) ← readCommand
    [("--depth", .number), ("--regexp", .text), ("--limit", .number)] .atMostOne args
  let command := .tree (r.operand?.getD here) (r.number? (Text.lit "--depth"))
    (r.text? (Text.lit "--regexp")) (limitOf r)
  return (command, leftOver)

/-- Reads the arguments of `find`. -/
def readFind (args : List Text) : Except Stop (Command × Bool) := do
  let (r, leftOver) ← readCommand
    [("--path", .text), ("--glob", .text), ("--limit", .number), ("--json", .flag)] .atMostOne args
  let command := .find r.operand? ((r.text? (Text.lit "--path")).getD here)
    (r.texts (Text.lit "--glob")) (r.number? (Text.lit "--limit")) (r.isSet (Text.lit "--json"))
  return (command, leftOver)

/-- Reads the arguments of `check`. -/
def readCheck (args : List Text) : Except Stop (Command × Bool) := do
  let (r, leftOver) ← readCommand [("--root", .text), ("--ignore-file", .text)] .atLeastOne args
  let command := .check (r.operands.getD []) ((r.text? (Text.lit "--root")).getD here)
    (r.texts (Text.lit "--ignore-file"))
  return (command, leftOver)

/-- Reads a command and its arguments, the name of the command first. -/
def readNamed : List Text → Except Stop (Command × Bool)
  | [] => .error .misuse
  | name :: args =>
    if name = Text.lit "walk" then readWalk args
    else if name = Text.lit "ls" then readLs args
    else if name = Text.lit "tree" then readTree args
    else if name = Text.lit "find" then readFind args
    else if name = Text.lit "check" then readCheck args
    else .error .misuse

/-- The grammar of a whole command line. -/
def grammar : Grammar where
  options := options [("--version", .version), ("--log-level", .text), ("--log-file", .text)]
  operands := .command

/-- Reads a command line. Arguments that fit nothing are refused last. -/
def Invocation.read (args : List Text) : Except Stop Invocation := do
  let (reading, found) ← grammar.read readNamed args
  if reading.leftOver || found.any (·.2) then throw .misuse
  return ⟨reading.text? (Text.lit "--log-level"), reading.text? (Text.lit "--log-file"),
    found.map (·.1)⟩

end TreeSieve.Cli
