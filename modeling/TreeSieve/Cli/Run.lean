import TreeSieve.Cli.Host
import TreeSieve.Cli.Outcome
import TreeSieve.Listing.Nested
import TreeSieve.Listing.Search

/-!
# Running commands

* `runCommand` runs a command on a host.
* `run` reads a command line, sets up logging, runs the command and writes the log.
-/

namespace TreeSieve.Cli

/-- The environment variables that matter. -/
structure Environment where
  ignoreFiles : Option Text
  levels : LogLevel.Environment

/-- The names of ignore files from a comma separated list, or the usual one. -/
def Environment.ignoreNames (env : Environment) : List Text :=
  let names := (Text.split ',' (env.ignoreFiles.getD [])).map Text.trim
  match names.filter fun name => !name.isEmpty with
  | [] => defaultIgnoreNames
  | given => given

/-- The names of ignore files that a command asks for. -/
def ignoreNames (env : Environment) (asked : List Text) : List Text :=
  if asked.isEmpty then env.ignoreNames else asked

section Output

/-- A listed entry as a JSON object. -/
def directoryItem (e : Entry) : Json :=
  .object [(Text.lit "name", .str e.name), (Text.lit "type", .str e.stats.kind.name),
    (Text.lit "size", .int e.stats.size), (Text.lit "permissions", .str e.stats.permissions)]

/-- A directory listing as a JSON object. -/
def directoryJson (listing : DirectoryListing) : Json :=
  .object [(Text.lit "content", .list (listing.entries.map directoryItem)),
    (Text.lit "total", .nat listing.entries.length),
    (Text.lit "is_limited", .bool listing.isLimited)]

/-- A listed entry as a line. -/
def directoryLine (e : Entry) : Text :=
  Outcome.line (Text.padLeft 6 e.stats.permissions ++ ' ' :: Text.padRight 16 e.stats.kind.name
    ++ ' ' :: Text.padLeft 10 (Text.ofInt e.stats.size) ++ ' ' :: e.name)

/-- A found path as a JSON object. -/
def foundItem (e : Entry) : Json :=
  .object [(Text.lit "path", .str e.path), (Text.lit "full_path", .str e.fullPath),
    (Text.lit "is_directory", .bool e.stats.isDirectory), (Text.lit "size", .int e.stats.size)]

/-- A search result as a JSON object. -/
def searchJson (result : SearchResult) : Json :=
  .object [(Text.lit "matches", .list (result.entries.map foundItem)),
    (Text.lit "total_matches", .nat result.entries.length)]

/-- A found path as a line; directories get a slash. -/
def foundLine (e : Entry) : Text :=
  Outcome.line (if e.stats.isDirectory then e.path ++ ['/'] else e.path)

/-- A walked entry as a line. -/
def walkLine (json : Bool) (e : Entry) : Text :=
  if json then
    Outcome.line (Json.compact (.object
      [(Text.lit "path", .str e.path), (Text.lit "type", .str e.stats.kind.name)]))
  else Outcome.line e.path

/-- Puts an item in its place among items that are ordered by name. -/
def insertByName (item : Text × Text) : List (Text × Text) → List (Text × Text)
  | [] => [item]
  | other :: rest =>
    if Text.le item.1 other.1 then item :: other :: rest else other :: insertByName item rest

mutual

/-- The lines of nested names in order, each level indented by two blanks more. -/
def nestedLines (indent : Text) : NameTree → Text
  | .node children => (nestedItems indent children).flatMap (·.2)

/-- The lines of each name with what is nested under it, in the order of the names. -/
def nestedItems (indent : Text) : List (Text × NameTree) → List (Text × Text)
  | [] => []
  | (name, below) :: others =>
    insertByName (name, Outcome.line (indent ++ name) ++ nestedLines (' ' :: ' ' :: indent) below)
      (nestedItems indent others)

end

/-- The line that explains what becomes of a path and why. -/
def verdictLine (asked : Text) (v : Verdict) : Text :=
  match v.deciding with
  | none => Outcome.line (Text.lit "::\t" ++ asked ++ Text.lit "\tincluded")
  | some (_, rule) =>
    let origin :=
      match rule.source with
      | none | some [] => rule.scope
      | some source => source
    Outcome.line (origin ++ ':' :: Text.ofInt rule.line ++ ':' :: rule.pattern ++ '\t' :: asked
      ++ Text.lit (if v.ignored then "\tignored" else "\tincluded"))

end Output

variable {m : Type → Type} [Monad m]

/-- The line that tells that a limit cut results off. -/
def limitedLine (limit : Int) : Text :=
  Outcome.line (Text.lit "Results limited to " ++ Text.ofInt limit ++ Text.lit " entries")

/-- Resolves the directory that a command works on and goes on with it. -/
def withResolved (host : Host m) (path : Text) (k : Text → m Outcome) : m Outcome := do
  match ← host.resolve path with
  | .error circular => return .failure (.circularLinks circular) []
  | .ok real => k real

/-- Prints every entry of a walk. -/
def runWalk (host : Host m) (steps : Nat) (path : Text) (request : Walk.Request) (json : Bool) :
    m Outcome := do
  match request.check with
  | .error e => return .ofError (.options e) [] []
  | .ok options =>
    let print (e : Entry) (out : List Text) := ForInStep.yield (walkLine json e :: out)
    let walk := Walk.new (Path.absolute host.current path) options
    let (printed, w) ← walkThrough host.files steps print [] walk
    match printed with
    | .error e => return .ofError e [] w.records
    | .ok lines =>
      let limited := if w.truncated then limitedLine (request.maxEntries.getD 0) else []
      return .success lines.reverse.flatten w.records limited 0

/-- Prints the entries of a directory. -/
def runLs (host : Host m) (steps : Nat) (path : Text) (limit : Int) (json : Bool) : m Outcome :=
  withResolved host path fun real => do
    let reported ← listChildren host.files steps host.current real none (some limit)
    match reported.answer with
    | .error e => return .ofError e [] reported.log
    | .ok listing =>
      if json then
        return .success (Outcome.line (directoryJson listing).indented) reported.log [] 0
      else
        let limited := if listing.isLimited then limitedLine limit else []
        return .success (listing.entries.flatMap directoryLine) reported.log limited 0

/-- Prints the nested names below a directory. -/
def runTree (host : Host m) (steps : Nat) (path : Text) (depth : Option Int)
    (regexp : Option Text) (limit : Int) : m Outcome :=
  withResolved host path fun real => do
    let reported ← nestDirectory host.files steps host.current real none depth regexp limit
    match reported.answer with
    | .error e => return .ofError e [] reported.log
    | .ok listing =>
      let limited :=
        if listing.isLimited then
          Outcome.line (Text.lit "Number of items exceeded " ++ Text.ofInt limit
            ++ Text.lit ". Try a narrower path or regexp.")
        else []
      return .success (nestedLines [] listing.content) reported.log limited 0

/-- Prints the paths that are found; finding nothing has an exit code of its own. -/
def runFind (host : Host m) (steps : Nat) (pattern : Option Text) (path : Text)
    (globs : List Text) (limit : Option Int) (json : Bool) : m Outcome :=
  withResolved host path fun real => do
    let reported ← searchPaths host.files steps host.current real pattern globs limit
    match reported.answer with
    | .error e => return .ofError e [] reported.log
    | .ok result =>
      let output :=
        if json then Outcome.line (searchJson result).indented
        else result.entries.flatMap foundLine
      return .success output reported.log [] (if result.entries.isEmpty then 2 else 0)

/-- What has been said about the paths to be checked: the lines, the records, and whether one of
them is ignored. -/
structure Checked where
  output : Text
  log : List LogRecord
  anyIgnored : Bool

/-- Whether there is a directory, by what is known of an entry; a failure that does not tell that
the entry is missing remains one. -/
def directoryAt : Except FileError FileStats → Except FileError Bool
  | .ok stats => .ok stats.isDirectory
  | .error e => if e.cause.meansMissing then .ok false else .error e

/-- Explains one path after the other, up to one that leads in a circle or cannot be looked up. -/
def checkPaths (host : Host m) (sieve : Sieve) :
    Checked → List Text → m (Checked × Option Failure)
  | checked, [] => return (checked, none)
  | checked, asked :: rest => do
    match ← host.resolve asked with
    | .error circular => return (checked, some (.circularLinks circular))
    | .ok real =>
      match directoryAt (← host.files.stat real) with
      | .error e => return (checked, some (.file e))
      | .ok isDirectory =>
        let verdict := sieve.verdict real isDirectory
        checkPaths host sieve
          ⟨checked.output ++ verdictLine asked verdict,
            checked.log ++ verdict.log (canonical real), checked.anyIgnored || verdict.ignored⟩ rest

/-- The record of a walk that took in the ignore files for a check. -/
def loadedLog (w : Walk) : LogRecord where
  level := .debug
  component := Text.lit "ignorewalk.cli"
  message := Text.lit "Loaded " ++ Text.ofNat w.sieve.stats.2 ++ Text.lit " ignore files walking "
    ++ Text.ofNat w.yielded ++ Text.lit " entries under " ++ w.rootText
  context := []

/-- Explains paths by the rules that a walk of the root finds. -/
def runCheck (host : Host m) (steps : Nat) (paths : List Text) (root : Text)
    (names : List Text) : m Outcome :=
  withResolved host root fun real => do
    let walk := Walk.new (Path.absolute host.current real)
      { Walk.Options.plain with ignoreNames := names }
    let (walked, w) ← walkThrough host.files steps (fun _ acc => .yield acc) () walk
    match walked with
    | .error e => return .ofError e [] w.records
    | .ok () =>
      let (checked, failure) ← checkPaths host w.sieve ⟨[], w.records ++ [loadedLog w], false⟩ paths
      let ending :=
        match failure with
        | some failure => .failed failure
        | none => .exit (if checked.anyIgnored then 0 else 1)
      return { Outcome.success checked.output checked.log [] 0 with ending }

/-- Runs a command. -/
def runCommand (host : Host m) (env : Environment) (steps : Nat) : Command → m Outcome
  | .walk path names followLinks maxDepth maxEntries includeEmpty json =>
    runWalk host steps path
      ⟨ignoreNames env names, followLinks, maxDepth, maxEntries, includeEmpty⟩ json
  | .ls path limit json => runLs host steps path limit json
  | .tree path depth regexp limit => runTree host steps path depth regexp limit
  | .find pattern path globs limit json => runFind host steps pattern path globs limit json
  | .check paths root names => runCheck host steps paths root (ignoreNames env names)

/-- The name and the version of the program. -/
def versionText : Text := Text.lit "ignorewalk 0.1.0"

/-- How the program is used. -/
def usageText : Text :=
  Text.lit "usage: ignorewalk [-h] [--version] [--log-level LOG_LEVEL] [--log-file LOG_FILE]\n"
    ++ Text.lit "                  \x7bwalk,ls,tree,find,check\x7d ...\n"

/-- What is said when reading the command line stops. -/
def stopped : Stop → Outcome
  | .help => .success usageText [] [] 0
  | .version => .success (Outcome.line versionText) [] [] 0
  | .misuse => .success [] [] usageText 2

/-- Runs a command line. -/
def run (host : Host m) (env : Environment) (steps : Nat) (args : List Text) : m Outcome := do
  match Invocation.read args with
  | .error stop => return stopped stop
  | .ok invocation =>
    let opened ←
      match invocation.logFile with
      | none | some [] => pure (.ok ())
      | some path => host.openLog path
    match opened with
    | .error e => return .failure (.file e) []
    | .ok () =>
      match LogLevel.resolve invocation.logLevel env.levels with
      | .error e => return .failure (.level e) []
      | .ok level =>
        let outcome ←
          match invocation.command with
          | none => pure (stopped .help)
          | some command => runCommand host env steps command
        let log := LogRecord.configured level false :: outcome.log
        let outcome := { outcome with level, log }
        match invocation.logFile with
        | none | some [] => pure ()
        | some path => host.addToLog path outcome.logLines
        return outcome

end TreeSieve.Cli
