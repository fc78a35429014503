import TreeSieve.Walk.Basic

/-!
# Going on with a walk

Entries are looked at in the order in which they were queued, so all entries of one depth come
before any deeper one. The ignore files of a directory are taken in before any of its entries is
queued, and so before any path that they hold for is looked at.

* `Walk.step` looks at one entry.
* `Walk.next` goes on to the next entry that is given out.
* `Walk.visit` goes through the entries with a function that may stop.

One entry after another is looked at for as long as there are any, so the last two are given a
number of steps that they make at most.
-/

namespace TreeSieve

/-- What a step of a walk comes to. An entry that was considered but not given out is ignored, or it
is the root. -/
inductive StepOutcome where
  | yielded (entry : Entry)
  | withheld (names : List Text) (isDirectory : Bool)
  | quiet
  | finished
  | failed (e : FileError)
  deriving DecidableEq, Repr

/-- What has become of a directory that is looked at. -/
inductive DirectoryOutcome where
  | unlistable
  | childless
  | mayHaveChildren
  deriving DecidableEq, Repr

/-- What an entry is found to be when a link may be followed: its stats, and the real path of the
directory that a followed link leads to. -/
structure Resolved where
  stats : FileStats
  target : Option Text
  deriving DecidableEq, Repr

namespace Walk

variable {m : Type → Type} [Monad m]

/-- The rule that every walk begins with: version control keeps its own data in the root. -/
def metadataRule : Text := Text.lit "/.git/"

/-- The state in which the root is the only entry to be looked at. -/
def begin (w : Walk) : Walk :=
  let (f, sieve) := w.sieve.insert w.rootText (.text metadataRule) none
  let w := w.note (w.sieve.registerLog f)
  { w with phase := .running, sieve, queue := [⟨[], w.rootStats, [], []⟩] }

/-- The end of a walk. -/
def finish (w : Walk) : Walk :=
  let finished := record .debug (Text.lit "Walk of " ++ w.rootText ++ Text.lit " finished")
  { w with phase := .ended, queue := [] }.note [{ finished with context := w.summary }]

/-- Whether as many entries have been given out as were asked for. -/
def isFull (w : Walk) : Bool := w.options.maxEntries.any (· ≤ w.yielded)

/-- The end of a walk that has given out all the entries asked for. -/
def truncate (w : Walk) : Walk :=
  let limit := (w.options.maxEntries.map Text.ofNat).getD []
  { w with truncated := true }.note
    [record .info (Text.lit "Entry limit " ++ limit ++ Text.lit " reached in " ++ w.rootText)]

/-- Whether a depth lies beyond the limit. -/
def isTooDeep (w : Walk) (depth : Nat) : Bool := w.options.maxDepth.any (· < depth)

/-- Whether a depth is the last one within the limit. -/
def isDeepest (w : Walk) (depth : Nat) : Bool := w.options.maxDepth == some depth

/-- The record of a call that failed. -/
def failureLog (what : String) (path : Text) (e : FileError) : LogRecord :=
  record .error (Text.lit what ++ ' ' :: path ++ ':' :: ' ' :: e.message)

/-- The record of a link that leads back. -/
def notFollowedLog (path target : Text) : LogRecord :=
  record .debug (Text.lit "Not following " ++ path ++ Text.lit ": " ++ target
    ++ Text.lit " is already being walked")

/-- Finds out what an entry is. A link is followed if the options say so, unless it leads to a
directory that is being walked or to one above: then it counts as the link it is. -/
def resolve (fs : FileSystem m) (w : Walk) (item : Candidate) : m (Resolved × Walk) := do
  let asIs : Resolved := ⟨item.stats, none⟩
  let path := w.pathOf item.names
  let failed (e : FileError) := (asIs, w.note [failureLog "Error accessing path" path e])
  if !(item.stats.isSymlink && w.options.followLinks) then return (asIs, w)
  match ← fs.stat path with
  | .error e => return failed e
  | .ok stats =>
    if !stats.isDirectory then return (⟨stats, none⟩, w)
    match ← fs.realPath path with
    | .error e => return failed e
    | .ok real =>
      let target := canonical real
      if item.visited.contains target || inScope item.parentReal target then
        return (asIs, w.note [notFollowedLog path target])
      else return (⟨stats, some target⟩, w)

/-- The real path of a directory that is not reached by following a link. -/
def realPathOf (fs : FileSystem m) (w : Walk) (item : Candidate) : m (Except FileError Text) := do
  if item.depth = 0 then return (← fs.realPath (w.pathOf item.names)).map canonical
  else return .ok (Text.dropEndWhile (· == '/') item.parentReal ++ '/' :: item.name)

/-- Takes in an ignore file. -/
def takeIn (fs : FileSystem m) (w : Walk) (path : Text) : m Walk := do
  let (f, sieve) ← w.sieve.load fs path
  return { w with sieve }.note (w.sieve.registerLog f)

/-- Looks at the entries of a directory one after the other: ignore files are taken in, and what
could be looked at is to be queued. -/
def gather (fs : FileSystem m) (item : Candidate) (real : Text) :
    Walk → List ListedEntry → m (List Candidate × Walk)
  | w, [] => return ([], w)
  | w, entry :: rest => do
    let names := item.names ++ [entry.name]
    let path := w.pathOf names
    match ← fs.lstat path with
    | .error e => gather fs item real (w.note [failureLog "Error accessing path" path e]) rest
    | .ok stats =>
      let w ←
        if stats.isFile && w.options.ignoreNames.contains entry.name then w.takeIn fs path
        else pure w
      let (items, w) ← gather fs item real w rest
      return (⟨names, stats, real, real :: item.visited⟩ :: items, w)

/-- Queues the entries of a directory. One at the depth limit, or one in which nothing can be kept,
is not listed. -/
def enqueue (fs : FileSystem m) (w : Walk) (item : Candidate) (real : Text) :
    m (DirectoryOutcome × Walk) := do
  if w.isDeepest item.depth then return (.mayHaveChildren, w)
  let path := w.pathOf item.names
  let verdict := w.sieve.verdict path true
  let entering := w.sieve.enteringAfter verdict path
  let w := w.note (verdict.log (canonical path) ++ entering.log (canonical path))
  if !entering.enters then return (.mayHaveChildren, w)
  match ← fs.list path with
  | .error e => return (.unlistable, w.note [failureLog "Error listing directory" path e])
  | .ok [] => return (.childless, w)
  | .ok (entry :: entries) =>
    let (items, w) ← gather fs item real w (entry :: entries)
    return (.mayHaveChildren, { w with queue := w.queue ++ items })

/-- Gives out an entry that is not ignored; the root is never given out. -/
def offer (w : Walk) (item : Candidate) (stats : FileStats) (isDirectory : Bool) :
    StepOutcome × Walk :=
  let path := w.pathOf item.names
  let verdict := w.sieve.verdict path isDirectory
  let w := w.note (verdict.log (canonical path))
  if verdict.ignored || item.depth = 0 then (.withheld item.names isDirectory, w)
  else (.yielded ⟨item.names, path, stats⟩, { w with yielded := w.yielded + 1 })

/-- Looks at a directory. It is given out if it is at the depth limit, or if it has no children and
such directories count. -/
def lookAtDirectory (fs : FileSystem m) (w : Walk) (item : Candidate) (stats : FileStats)
    (real : Text) : m (StepOutcome × Walk) := do
  match ← w.enqueue fs item real with
  | (.unlistable, w) => return (.quiet, w)
  | (.childless, w) =>
    if w.options.includeEmpty || w.isDeepest item.depth then return w.offer item stats true
    else return (.quiet, w)
  | (.mayHaveChildren, w) =>
    if w.isDeepest item.depth then return w.offer item stats true else return (.quiet, w)

/-- Looks at the entry that was first in the queue. -/
def lookAt (fs : FileSystem m) (w : Walk) (item : Candidate) : m (StepOutcome × Walk) := do
  let (found, w) ← w.resolve fs item
  if found.stats.isDirectory then
    match found.target with
    | some real => w.lookAtDirectory fs item found.stats real
    | none =>
      match ← w.realPathOf fs item with
      | .error e => return (.failed e, { w with phase := .ended })
      | .ok real => w.lookAtDirectory fs item found.stats real
  else return w.offer item found.stats false

/-- Goes on with a walk that is under way. -/
def advance (fs : FileSystem m) (w : Walk) : m (StepOutcome × Walk) := do
  match w.queue with
  | [] => return (.finished, w.finish)
  | item :: rest =>
    if w.isFull then return (.finished, w.truncate.finish)
    else if w.isTooDeep item.depth then return (.finished, w.finish)
    else lookAt fs { w with queue := rest, visited := w.visited + 1 } item

/-- One step of a walk; a walk that is not under way stays as it is. -/
def step (fs : FileSystem m) (w : Walk) : m (StepOutcome × Walk) :=
  match w.phase with
  | .ready => w.begin.advance fs
  | .running => w.advance fs
  | _ => return (.finished, w)

/-- Goes through the entries of a walk, in at most the given number of steps. -/
def visit (fs : FileSystem m) (f : Entry → β → ForInStep β) :
    Nat → β → Walk → m (Except FileError β × Walk)
  | 0, acc, w => return (.ok acc, w)
  | steps + 1, acc, w => do
    match ← w.step fs with
    | (.yielded entry, w) =>
      match f entry acc with
      | .done acc => return (.ok acc, w)
      | .yield acc => visit fs f steps acc w
    | (.withheld _ _, w) | (.quiet, w) => visit fs f steps acc w
    | (.finished, w) => return (.ok acc, w)
    | (.failed e, w) => return (.error e, w)

/-- The next entry that is given out, if there is one. -/
def next (fs : FileSystem m) (steps : Nat) (w : Walk) :
    m (Except FileError (Option Entry) × Walk) :=
  visit fs (fun entry _ => .done (some entry)) steps none w

/-- All entries that are still to be given out. -/
def entries (fs : FileSystem m) (steps : Nat) (w : Walk) :
    m (Except FileError (List Entry) × Walk) := do
  let (found, w) ← visit fs (fun entry acc => .yield (entry :: acc)) steps [] w
  return (found.map List.reverse, w)

end Walk

end TreeSieve
