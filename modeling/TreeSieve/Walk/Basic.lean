import TreeSieve.Sieve.Basic
import TreeSieve.Walk.Options

/-!
# The state of a walk

* `Candidate` is an entry waiting to be looked at, addressed by the names below the root.
* `Walk` is the whole state: the queue, the ignore files found so far, and the counts.
* `Entry` is what a walk gives out.
-/

namespace TreeSieve

/-- An entry that waits to be looked at: the names that lead to it from the root, what is known of
it, the real path of its parent, and the real paths of all directories that lead to it. -/
structure Candidate where
  names : List Text
  stats : FileStats
  parentReal : Text
  visited : List Text
  deriving DecidableEq, Repr

/-- The depth of an entry below the root. -/
def Candidate.depth (item : Candidate) : Nat := item.names.length

/-- The last name of an entry, empty for the root. -/
def Candidate.name (item : Candidate) : Text := item.names.getLast?.getD []

/-- An entry that a walk gives out. -/
structure Entry where
  names : List Text
  fullPath : Text
  stats : FileStats
  deriving DecidableEq, Repr

namespace Entry

/-- The path of an entry relative to the root. -/
def path (e : Entry) : Text := Text.joinWith '/' e.names

/-- The last name of an entry. -/
def name (e : Entry) : Text := e.names.getLast?.getD []

end Entry

/-- How far a walk has come: it has not been started, its root was refused, its root was accepted,
it is going on, or it has ended. -/
inductive WalkPhase where
  | unstarted
  | refused
  | ready
  | running
  | ended
  deriving DecidableEq, Repr

/-- The state of a walk. The records of its log stand last one first. -/
structure Walk where
  root : Path
  options : Walk.Options
  phase : WalkPhase
  rootStats : FileStats
  queue : List Candidate
  sieve : Sieve
  yielded : Nat
  visited : Nat
  truncated : Bool
  log : List LogRecord

namespace Walk

/-- A walk that has not been started. -/
def new (root : Path) (options : Walk.Options) : Walk where
  root := root
  options := options
  phase := .unstarted
  rootStats := .ofMode 0 0
  queue := []
  sieve := Sieve.empty
  yielded := 0
  visited := 0
  truncated := false
  log := []

/-- The path of the entry below the root with the given names. -/
def pathOf (w : Walk) (names : List Text) : Text := (w.root.descend names).toText

/-- The text of the root. -/
def rootText (w : Walk) : Text := w.root.toText

/-- Adds records to the log. -/
def note (w : Walk) (records : List LogRecord) : Walk :=
  { w with log := records.reverse ++ w.log }

/-- The records of the log in order. -/
def records (w : Walk) : List LogRecord := w.log.reverse

/-! Adding to the log changes nothing else. -/

@[simp] theorem note_root (w : Walk) (r : List LogRecord) : (w.note r).root = w.root := rfl

@[simp] theorem note_options (w : Walk) (r : List LogRecord) : (w.note r).options = w.options := rfl

@[simp] theorem note_phase (w : Walk) (r : List LogRecord) : (w.note r).phase = w.phase := rfl

@[simp] theorem note_rootStats (w : Walk) (r : List LogRecord) :
    (w.note r).rootStats = w.rootStats := rfl

@[simp] theorem note_queue (w : Walk) (r : List LogRecord) : (w.note r).queue = w.queue := rfl

@[simp] theorem note_sieve (w : Walk) (r : List LogRecord) : (w.note r).sieve = w.sieve := rfl

@[simp] theorem note_yielded (w : Walk) (r : List LogRecord) : (w.note r).yielded = w.yielded := rfl

@[simp] theorem note_visited (w : Walk) (r : List LogRecord) : (w.note r).visited = w.visited := rfl

@[simp] theorem note_truncated (w : Walk) (r : List LogRecord) :
    (w.note r).truncated = w.truncated := rfl

@[simp] theorem records_note (w : Walk) (r : List LogRecord) :
    (w.note r).records = w.records ++ r := by
  simp [records, note]

/-- A record of a walk. -/
def record (level : LogLevel) (message : Text) : LogRecord :=
  ⟨level, Text.lit "ignorewalk.walker", message, []⟩

/-- The counts of a walk and of its rules, as they are reported at its end. -/
def summary (w : Walk) : List (Text × Json) :=
  let (rules, files) := w.sieve.stats
  [(Text.lit "entries", .nat w.yielded), (Text.lit "visited", .nat w.visited),
    (Text.lit "truncated", .bool w.truncated), (Text.lit "rule_sets", .nat rules.blocks),
    (Text.lit "total_rules", .nat rules.rules), (Text.lit "negation_rules", .nat rules.negated),
    (Text.lit "scopes", .nat rules.scopes), (Text.lit "ignore_files", .nat files)]

end Walk

end TreeSieve
