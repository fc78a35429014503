import TreeSieve.Walk.Basic

/-!
# Starting a walk

* `Walk.start` looks at the root and accepts it if it is a directory or a link to one. A walk can be
  started once; a second start is refused even if the first one was.
-/

namespace TreeSieve

/-- Why the root of a walk is refused. -/
inductive RootFault where
  | missing
  | inaccessible (e : FileError)
  | notADirectory
  deriving DecidableEq, Repr

/-- Why a walk does not start. -/
inductive StartError where
  | alreadyStarted (root : Text)
  | invalidRoot (fault : RootFault) (root : Text)
  deriving DecidableEq, Repr

/-- The wording of a refused root. -/
def RootFault.message : RootFault → Text
  | missing => Text.lit "The provided path does not exist"
  | inaccessible e => Text.lit "Cannot access the provided path (" ++ e.message ++ [')']
  | notADirectory => Text.lit "The provided path is not a directory"

/-- The wording of a refusal to start. -/
def StartError.message : StartError → Text
  | alreadyStarted root => Text.lit "Walk of " ++ root ++ Text.lit " already started"
  | invalidRoot fault root => fault.message ++ ':' :: ' ' :: root

namespace Walk

/-- What is wrong with a root on which a call failed. -/
def rootFault (e : FileError) : RootFault :=
  if e.cause = .noSuchEntry then .missing else .inaccessible e

/-- A limit as it is shown. -/
def limitText : Option Nat → Text
  | none => Text.lit "None"
  | some n => Text.ofNat n

/-- The record of an accepted root. -/
def startLog (w : Walk) : LogRecord :=
  record .info (Text.lit "Walking " ++ w.rootText ++ Text.lit " (max_depth="
    ++ limitText w.options.maxDepth ++ Text.lit ", max_entries=" ++ limitText w.options.maxEntries
    ++ [')'])

/-- What is known of the root, through a link if it is one. -/
def lookAtRoot {m : Type → Type} [Monad m] (fs : FileSystem m) (root : Text) :
    m (Except RootFault FileStats) := do
  match ← fs.lstat root with
  | .error e => return .error (rootFault e)
  | .ok stats =>
    if stats.isSymlink then
      match ← fs.stat root with
      | .error e => return .error (rootFault e)
      | .ok target => return if target.isDirectory then .ok target else .error .notADirectory
    else return if stats.isDirectory then .ok stats else .error .notADirectory

/-- Starts a walk. -/
def start {m : Type → Type} [Monad m] (fs : FileSystem m) (w : Walk) :
    m (Except StartError Unit × Walk) := do
  if w.phase != .unstarted then return (.error (.alreadyStarted w.rootText), w)
  match ← lookAtRoot fs w.rootText with
  | .error fault => return (.error (.invalidRoot fault w.rootText), { w with phase := .refused })
  | .ok stats => return (.ok (), { w with phase := .ready, rootStats := stats }.note [w.startLog])

end Walk

end TreeSieve
