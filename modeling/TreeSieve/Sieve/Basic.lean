import TreeSieve.Sieve.IgnoreFile
import TreeSieve.Rule.Rulebook
import TreeSieve.Rule.Verdict

/-!
# The sieve

A sieve takes in ignore files as they are found, and decides about paths from all of them.

* `Sieve.insert` takes in a text, `Sieve.load` a file.
* `Sieve.verdict` decides about a path.
* `Sieve.entering` decides whether a directory has to be looked into: an ignored one only if a
  negated rule that is later than the deciding one could hold for something inside.
-/

namespace TreeSieve

/-- Ignore files that have been taken in: the patterns compiled so far, the rules, and the files by
source. -/
structure Sieve where
  cache : MatcherCache
  rulebook : Rulebook
  files : List (Text × IgnoreFile)

/-- Whether a directory has to be looked into. -/
inductive Entering where
  | notIgnored
  | forNegation (rule : Rule)
  | pruned (rule : Rule)
  deriving DecidableEq, Repr

namespace Entering

/-- Whether the directory is looked into. -/
def enters : Entering → Bool
  | pruned _ => false
  | _ => true

/-- The records of the choice. -/
def log (path : Text) : Entering → List LogRecord
  | notIgnored => []
  | forNegation rule =>
    [{ level := .trace
       component := Text.lit "ignorewalk.ignore.manager"
       message := path ++ Text.lit ": entering for negation '" ++ rule.pattern
         ++ Text.lit "' from " ++ rule.scope
       context := [] }]
  | pruned rule =>
    [{ level := .debug
       component := Text.lit "ignorewalk.ignore.manager"
       message := Text.lit "Pruning " ++ path ++ Text.lit " (ignored by '" ++ rule.pattern
         ++ Text.lit "')"
       context := [] }]

end Entering

namespace Sieve

/-- A sieve without ignore files. -/
def empty : Sieve := ⟨MatcherCache.empty, Rulebook.empty, []⟩

/-- Takes in an ignore file that has been read. It is entered under its source, in place of an older
one; a file without a source has no entry of its own. -/
def register (s : Sieve) (f : IgnoreFile) (cache : MatcherCache) : Sieve where
  cache := cache
  rulebook := s.rulebook.add f.scope f.rules f.source
  files :=
    match f.source with
    | none | some [] => s.files
    | some source => Text.alterEntry source (fun _ => f) s.files

/-- The records of taking in a file. -/
def registerLog (s : Sieve) (f : IgnoreFile) : List LogRecord :=
  f.problemLogs ++ [Rulebook.addLog (s.rulebook.nextBlock f.scope f.rules f.source)]

/-- Takes in the text of an ignore file. -/
def insert (s : Sieve) (scope : Text) (content : Content) (source : Option Text) :
    IgnoreFile × Sieve :=
  let (f, cache) := IgnoreFile.parse s.cache scope content source
  (f, s.register f cache)

/-- Takes in an ignore file. -/
def load {μ : Type → Type} [Monad μ] (fs : FileSystem μ) (s : Sieve) (path : Text) :
    μ (IgnoreFile × Sieve) := do
  let (f, cache) ← IgnoreFile.load fs s.cache path
  return (f, s.register f cache)

/-- The rules that hold for a path, with their numbers. -/
def rulesFor (s : Sieve) (path : Text) : List (Nat × Rule) :=
  s.rulebook.rulesFor (canonical path)

/-- The verdict on a path. -/
def verdict (s : Sieve) (path : Text) (isDirectory : Bool) : Verdict :=
  Verdict.ofRules (s.rulesFor path) (canonical path) isDirectory

/-- Whether a path is ignored. -/
def isIgnored (s : Sieve) (path : Text) (isDirectory : Bool) : Bool :=
  (s.verdict path isDirectory).ignored

/-- Whether a directory has to be looked into, given the verdict on it. -/
def enteringAfter (s : Sieve) (v : Verdict) (directory : Text) : Entering :=
  match v.deciding with
  | none => .notIgnored
  | some (number, deciding) =>
    if deciding.negated then .notIgnored
    else
      let reopens := (s.rulesFor directory).find? fun (later, rule) =>
        number < later && rule.negated && rule.mayCoverBelow (canonical directory)
      match reopens with
      | some (_, rule) => .forNegation rule
      | none => .pruned deciding

/-- Whether a directory has to be looked into. -/
def entering (s : Sieve) (directory : Text) : Entering :=
  s.enteringAfter (s.verdict directory true) directory

/-- The records of asking for a verdict. -/
def verdictLog (s : Sieve) (path : Text) (isDirectory : Bool) : List LogRecord :=
  (s.verdict path isDirectory).log (canonical path)

/-- The records of asking whether a directory has to be looked into. -/
def enteringLog (s : Sieve) (directory : Text) : List LogRecord :=
  s.verdictLog directory true ++ (s.entering directory).log (canonical directory)

/-- The counts of the rulebook, and the number of files with a source. -/
def stats (s : Sieve) : RulebookCounts × Nat := (s.rulebook.stats, s.files.length)

end Sieve

end TreeSieve
